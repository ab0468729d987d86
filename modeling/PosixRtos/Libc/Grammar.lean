import PosixRtos.Libc.Number

/-! The format language of `vsprintf`: a grammar for the formats, and what each
item of a format renders. -/
namespace PosixRtos.Libc

open PosixRtos.Library.ByteMemory

variable {δ : Type}

/-! The grammar. -/

/-- `(digits | '*')?` -/
inductive Count where
  | absent
  | digits (ds : List Byte)
  | star
deriving DecidableEq

/-- `flag* count ('.' count)? [hlL]? conversion`, where the end of the format may
cut the conversion off. -/
structure Directive where
  flags : List Byte
  width : Count
  precision : Option Count
  qualifier : Option Byte
  conversion : Option Byte
deriving DecidableEq

inductive Item where
  | literal (c : Byte)
  | directive (d : Directive)
deriving DecidableEq

def Count.text : Count → List Byte
  | .absent => []
  | .digits ds => ds
  | .star => [ascii '*']

def Directive.text (d : Directive) : List Byte :=
  d.flags ++ d.width.text ++ (d.precision.elim [] fun count => ascii '.' :: count.text) ++
    d.qualifier.toList ++ d.conversion.toList

def Item.text : Item → List Byte
  | .literal c => [c]
  | .directive d => ascii '%' :: d.text

def isFlag (c : Byte) : Bool := (FormatFlags.set {} c).isSome

/-! Each part of a directive is as long as it can be. -/

def parseCount : List Byte → Count × List Byte
  | [] => (.absent, [])
  | c :: rest =>
      if isDigit c then (.digits ((c :: rest).takeWhile isDigit), (c :: rest).dropWhile isDigit)
      else if c = ascii '*' then (.star, rest)
      else (.absent, c :: rest)

def parsePrecision : List Byte → Option Count × List Byte
  | [] => (none, [])
  | c :: rest =>
      if c = ascii '.' then (some (parseCount rest).1, (parseCount rest).2) else (none, c :: rest)

def parseQualifier : List Byte → Option Byte × List Byte
  | [] => (none, [])
  | c :: rest => if isQualifier c then (some c, rest) else (none, c :: rest)

/-- The directive behind a `%` and what follows it. -/
def parseDirective (rest : List Byte) : Directive × List Byte :=
  let width := parseCount (rest.dropWhile isFlag)
  let precision := parsePrecision width.2
  let qualifier := parseQualifier precision.2
  (⟨rest.takeWhile isFlag, width.1, precision.1, qualifier.1, qualifier.2.head?⟩, qualifier.2.tail)

/-- A format is a sequence of items. -/
inductive Derives : List Item → List Byte → Prop where
  | nil : Derives [] []
  | literal {c : Byte} {items : List Item} {rest : List Byte} :
      c ≠ ascii '%' → Derives items rest → Derives (.literal c :: items) (c :: rest)
  | directive {items : List Item} {rest : List Byte} :
      Derives items (parseDirective rest).2 →
        Derives (.directive (parseDirective rest).1 :: items) (ascii '%' :: rest)

/-- Whether the items are those of the format. -/
def derivesItems : List Item → List Byte → Bool
  | [], rest => rest.isEmpty
  | _ :: _, [] => false
  | .literal c :: items, c' :: rest => c' = c && c ≠ ascii '%' && derivesItems items rest
  | .directive d :: items, c :: rest =>
      c = ascii '%' && (parseDirective rest).1 = d && derivesItems items (parseDirective rest).2

theorem derives_of_derivesItems {items : List Item} {fmt : List Byte}
    (h : derivesItems items fmt = true) : Derives items fmt := by
  fun_induction derivesItems items fmt with
  | case1 rest =>
    rw [List.isEmpty_iff.mp h]
    exact .nil
  | case2 => cases h
  | case3 c items c' rest ih =>
    simp only [Bool.and_eq_true, decide_eq_true_eq] at h
    obtain ⟨⟨rfl, hc⟩, hrest⟩ := h
    exact .literal hc (ih hrest)
  | case4 d items c rest ih =>
    simp only [Bool.and_eq_true, decide_eq_true_eq] at h
    obtain ⟨⟨rfl, rfl⟩, hrest⟩ := h
    exact .directive (ih hrest)

theorem parseCount_text (rest : List Byte) :
    (parseCount rest).1.text ++ (parseCount rest).2 = rest := by
  cases rest with
  | nil => rfl
  | cons c rest =>
    simp only [parseCount]
    split
    · exact List.takeWhile_append_dropWhile
    split
    · next hstar => rw [hstar]; rfl
    · rfl

theorem parsePrecision_text (rest : List Byte) :
    ((parsePrecision rest).1.elim [] fun count => ascii '.' :: count.text) ++
      (parsePrecision rest).2 = rest := by
  cases rest with
  | nil => rfl
  | cons c rest =>
    simp only [parsePrecision]
    split
    · next hdot =>
      rw [hdot]
      exact congrArg (ascii '.' :: ·) (parseCount_text rest)
    · rfl

theorem parseQualifier_text (rest : List Byte) :
    (parseQualifier rest).1.toList ++ (parseQualifier rest).2 = rest := by
  cases rest with
  | nil => rfl
  | cons c rest =>
    simp only [parseQualifier]
    split
    · rfl
    · rfl

theorem parseDirective_text (rest : List Byte) :
    (parseDirective rest).1.text ++ (parseDirective rest).2 = rest := by
  unfold parseDirective Directive.text
  dsimp only
  generalize hw : parseCount (rest.dropWhile isFlag) = width
  generalize hp : parsePrecision width.2 = precision
  generalize hq : parseQualifier precision.2 = qualifier
  have hwidth : width.1.text ++ width.2 = rest.dropWhile isFlag := hw ▸ parseCount_text _
  have hprecision := parsePrecision_text width.2
  have hqualifier := parseQualifier_text precision.2
  rw [hp] at hprecision
  rw [hq] at hqualifier
  have hhead : qualifier.2.head?.toList ++ qualifier.2.tail = qualifier.2 := by
    cases qualifier.2 <;> rfl
  simp only [List.append_assoc]
  rw [hhead, hqualifier, hprecision, hwidth, List.takeWhile_append_dropWhile]

/-- The items of a format spell it. -/
theorem Derives.text {items : List Item} {fmt : List Byte} (h : Derives items fmt) :
    items.flatMap Item.text = fmt := by
  induction h with
  | nil => rfl
  | literal _ _ ih => rw [List.flatMap_cons, ih]; rfl
  | directive _ ih =>
    rw [List.flatMap_cons, ih, Item.text, List.cons_append, parseDirective_text]

/-- Every byte string is a format. -/
theorem exists_derives (fmt : List Byte) : ∃ items, Derives items fmt := by
  induction hn : fmt.length using Nat.strongRecOn generalizing fmt with
  | ind n ih =>
    cases fmt with
    | nil => exact ⟨[], .nil⟩
    | cons c rest =>
      rw [List.length_cons] at hn
      by_cases hc : c = ascii '%'
      · have hlength := congrArg List.length (parseDirective_text rest)
        rw [List.length_append] at hlength
        obtain ⟨items, hitems⟩ := ih _ (by omega) (parseDirective rest).2 rfl
        subst hc
        exact ⟨_, .directive hitems⟩
      · obtain ⟨items, hitems⟩ := ih _ (by omega) rest rfl
        exact ⟨_, .literal hc hitems⟩

/-! What the items render. -/

/-- Spaces up to `width`, on the right if `left` is set. -/
def justify (width : Int) (left : Bool) (s : List Byte) : List Byte :=
  let fill := List.replicate (width - s.length).toNat (ascii ' ')
  if left then s ++ fill else fill ++ s

theorem length_justify (width : Int) (left : Bool) (s : List Byte) :
    (justify width left s).length = max width.toNat s.length := by
  unfold justify
  cases left <;> simp <;> omega

/-- A string cut at the precision. It must end before its array does, unless the
precision keeps the reads inside; no array is longer than the address space. -/
def cutString (precision : Int) (s : List Byte) : Option (List Byte) :=
  let t := if precision < 0 then s else s.take precision.toNat
  if s.length ≤ 2 ^ 32 ∧ (0 ∈ t ∨ 0 ≤ precision ∧ precision ≤ s.length) then
    some (t.takeWhile (· ≠ 0))
  else none

/-- The number that digits denote. -/
def decimal (ds : List Byte) : Nat := ds.foldl (fun n c => n * 10 + (c.toNat - 48)) 0

def resolveWidth (flags : FormatFlags) (args : List (Arg δ)) :
    Count → Option (Int × FormatFlags × List (Arg δ))
  | .absent => some (-1, flags, args)
  | .digits ds => some (decimal ds, flags, args)
  | .star =>
      match args with
      | .int v :: args =>
          -- a negative width means left-justify
          if v.toInt < 0 then some (-v.toInt, { flags with left := true }, args)
          else some (v.toInt, flags, args)
      | _ => none

def resolvePrecision (args : List (Arg δ)) : Option Count → Option (Int × List (Arg δ))
  | none => some (-1, args)
  | some .absent => some (0, args)
  | some (.digits ds) => some (decimal ds, args)
  | some .star =>
      match args with
      | .int v :: args => some (max 0 v.toInt, args)
      | _ => none

/-- A directive with the values that it takes from the argument list. -/
def Directive.resolve (d : Directive) (args : List (Arg δ)) :
    Option (Resolved × List (Arg δ)) := do
  let flags := d.flags.foldl (fun flags c => (flags.set c).getD flags) {}
  let (width, flags, args) ← resolveWidth flags args d.width
  let (precision, args) ← resolvePrecision args d.precision
  some (⟨flags, width, precision, d.qualifier⟩, args)

/-- A number that a conversion prints. -/
structure NumberField where
  num : BitVec 32
  base : Nat
  width : Int
  precision : Int
  flags : FormatFlags

def NumberField.text (n : NumberField) : List Byte :=
  numberText n.num n.base n.width n.precision n.flags

def NumberField.Fits (n : NumberField) : Prop := NumberFits n.num n.base n.width n.precision n.flags

instance (n : NumberField) : Decidable n.Fits := inferInstanceAs (Decidable (NumberFits ..))

/-- The value that the qualifier `h` leaves of an `int`. -/
def integerValue (qualifier : Option Byte) (sign : Bool) (value : BitVec 32) : BitVec 32 :=
  if qualifier = some (ascii 'h') then
    if sign then BitVec.ofInt 32 (value.toInt.bmod (2 ^ 16))
    else BitVec.ofNat 32 (value.toNat % 2 ^ 16)
  else value

def Resolved.integer (r : Resolved) (base : Nat) (sign large : Bool) (value : BitVec 32) :
    NumberField :=
  let flags := { r.flags with sign := r.flags.sign || sign, large := r.flags.large || large }
  ⟨integerValue r.qualifier flags.sign value, base, r.width, r.precision, flags⟩

/-- Without a width an address has its eight digits. -/
def Resolved.pointer (r : Resolved) (address : BitVec 32) : NumberField :=
  if r.width = -1 then ⟨address, 16, 8, r.precision, { r.flags with zeropad := true }⟩
  else ⟨address, 16, r.width, r.precision, r.flags⟩

/-- A byte with at least `digits` digits. -/
def byteText (base : Nat) (digits : Int) (large : Bool) (b : Byte) : List Byte :=
  numberText (b.zeroExtend 32) base (-1) digits { large := large }

/-- A hardware address is `xx:xx:xx:xx:xx:xx`, and one of the network `n.n.n.n`. -/
def addressText (qualifier : Option Byte) (large : Bool) (addr : List Byte) : Option (List Byte) :=
  if qualifier = some (ascii 'l') then
    if 6 ≤ addr.length then
      some ([ascii ':'].intercalate ((addr.take 6).map (byteText 16 2 large)))
    else none
  else if 4 ≤ addr.length then
    some ([ascii '.'].intercalate ((addr.take 4).map (byteText 10 (-1) false)))
  else none

/-- The next argument, which has to be of the given kind. -/
def nextArg (kind : Arg δ → Option α) : List (Arg δ) → Option (α × List (Arg δ))
  | [] => none
  | arg :: args => (kind arg).map fun value => (value, args)

/-- A conversion; `flt` stands for the floating ones. `%n` stores the number of the
characters in front of it. -/
def render (flt : FloatRenderer δ) (r : Resolved) (st : Printed δ) :
    Option Byte → Option (Printed δ)
  | none => some (st.emit st.args [ascii '%'])
  | some c =>
      match conversionOf c with
      | .char => do
          let (v, args) ← nextArg Arg.int? st.args
          some (st.emit args (justify r.width r.flags.left [v.truncate 8]))
      | .string => do
          let (s, args) ← nextArg Arg.string? st.args
          let s ← cutString r.precision (s.getD (text "<NULL>" ++ [0]))
          some (st.emit args (justify r.width r.flags.left s))
      | .pointer => do
          let (address, args) ← nextArg Arg.pointer? st.args
          some (st.emit args (r.pointer address).text)
      | .count => do
          let (address, args) ← nextArg Arg.pointer? st.args
          some { st with args := args, stores := st.stores ++ [(address, st.out.length)] }
      | .address large => do
          let (addr, args) ← nextArg Arg.address? st.args
          let s ← addressText r.qualifier (r.flags.large || large) addr
          some (st.emit args (justify r.width r.flags.left s))
      | .integer base sign large => do
          let (v, args) ← nextArg Arg.int? st.args
          some (st.emit args (r.integer base sign large v).text)
      | .float => do
          let (v, args) ← nextArg Arg.double? st.args
          some (st.emit args (flt v r.width r.precision c { r.flags with sign := true }))
      | .other =>
          some (st.emit st.args (if c = ascii '%' then [ascii '%'] else [ascii '%', c]))

/-- The conversions whose output depends on the width. -/
def Conversion.usesWidth : Conversion → Bool
  | .count | .other => false
  | _ => true

def Conversion.usesPrecision : Conversion → Bool
  | .string | .pointer | .integer _ _ _ | .float => true
  | _ => false

/-- The number that a conversion prints. -/
def Resolved.field? (r : Resolved) (args : List (Arg δ)) : Conversion → Option NumberField
  | .integer base sign large =>
      (nextArg Arg.int? args).map fun (v, _) => r.integer base sign large v
  | .pointer => (nextArg Arg.pointer? args).map fun (address, _) => r.pointer address
  | _ => none

/-- The width and the precision that a conversion uses are values of an `int`, and so is
what the counter of `number` holds. -/
def Resolved.fits (r : Resolved) (args : List (Arg δ)) : Option Byte → Bool
  | none => true
  | some c =>
      (!(conversionOf c).usesWidth || r.width < 2 ^ 31) &&
        (!(conversionOf c).usesPrecision || r.precision < 2 ^ 31) &&
          (r.field? args (conversionOf c)).all fun n => n.Fits

/-- What the items render, one after the other. Each directive has to find arguments
of the right kind and to meet `ok`. -/
def renderItems (flt : FloatRenderer δ) (ok : Resolved → List (Arg δ) → Option Byte → Bool) :
    List Item → Printed δ → Option (Printed δ)
  | [], st => some st
  | .literal c :: items, st => renderItems flt ok items (st.emit st.args [c])
  | .directive d :: items, st => do
      let (r, args) ← d.resolve st.args
      if ok r args d.conversion then
        let st ← render flt r { st with args := args } d.conversion
        renderItems flt ok items st
      else none

theorem renderItems_directive {flt : FloatRenderer δ}
    {ok : Resolved → List (Arg δ) → Option Byte → Bool} {d : Directive} {items : List Item}
    {st st' : Printed δ}
    (h : renderItems flt ok (.directive d :: items) st = some st') :
    ∃ r args st₁, d.resolve st.args = some (r, args) ∧ ok r args d.conversion = true ∧
      render flt r { st with args := args } d.conversion = some st₁ ∧
      renderItems flt ok items st₁ = some st' := by
  obtain ⟨⟨r, args⟩, hresolve, h⟩ := Option.bind_eq_some_iff.mp h
  dsimp only at h
  split at h
  case isFalse => cases h
  case isTrue hok =>
    obtain ⟨st₁, hrender, hrest⟩ := Option.bind_eq_some_iff.mp h
    exact ⟨r, args, st₁, hresolve, hok, hrender, hrest⟩

end PosixRtos.Libc
