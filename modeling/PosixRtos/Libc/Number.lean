import PosixRtos.Libc.Format

/-! What `number` prints: a number in the given base, in a field of the given
width. -/
namespace PosixRtos.Libc

open PosixRtos.Library.ByteMemory

/-! The padding loops. The counter goes one below the bound before a loop ends. -/

variable {turns : Nat}

theorem padLoop_eq (c : Byte) {len size : Int} (hlen : 0 ≤ len) (hlow : -2 ^ 31 ≤ size)
    (hhigh : size < 2 ^ 31) (hturns : (size - len).toNat < turns) :
    padLoop c len turns size =
      (List.replicate (size - len).toNat c, toInt (min size len - 1)) := by
  induction turns generalizing size with
  | zero => omega
  | succ turns ih =>
    rw [padLoop]
    split
    next hlt =>
      obtain ⟨n, hn⟩ : ∃ n, (size - len).toNat = n + 1 := ⟨(size - len).toNat - 1, by omega⟩
      have hprev : (size - 1 - len).toNat = n := by omega
      have hmin : min (size - 1) len = min size len := by omega
      rw [toInt_of_fits (by omega) (by omega), ih (by omega) (by omega) (by omega), hn, hprev,
        hmin, List.replicate_succ]
    next hge =>
      rw [show (size - len).toNat = 0 by omega, List.replicate_zero, min_eq_left (by omega)]

theorem pad_eq (c : Byte) {len size : Int} (hlen : 0 ≤ len) (hlow : -2 ^ 31 ≤ size)
    (hhigh : size < 2 ^ 31) :
    pad c len size = (List.replicate (size - len).toNat c, toInt (min size len - 1)) :=
  padLoop_eq c hlen hlow hhigh (Nat.lt_succ_self _)

/-- A loop that has nothing to write. -/
theorem pad_done (c : Byte) (len size : Int) (h : size ≤ len) : (pad c len size).1 = [] := by
  unfold pad padLoop
  rw [if_neg (by omega)]

/-! The parts of the output. -/

/-- The sign character that is due; it stands for nothing without SIGN. -/
def signChar (num : BitVec 32) (type : FormatFlags) : Option Byte :=
  if type.sign then
    if num.toInt < 0 then some (ascii '-')
    else if type.plus then some (ascii '+')
    else if type.space then some (ascii ' ')
    else none
  else none

/-- What SPECIAL puts in front of the digits. -/
def specialText (base : Nat) (type : FormatFlags) : List Byte :=
  if type.special then
    if base = 8 then text "0" else if base = 16 then text "0x" else []
  else []

/-- The absolute value; without SIGN the number is unsigned. -/
def magnitude (num : BitVec 32) (type : FormatFlags) : Nat :=
  if type.sign then num.toInt.natAbs else num.toNat

def digitTable (type : FormatFlags) : List Byte := if type.large then upperDigits else lowDigits

/-- The digits from the last one on; zero has one digit. -/
def digitsOf (base m : Nat) : List Nat := if m = 0 then [0] else Nat.digits base m

/-- The value of a digit string. -/
def stringValue (table : List Byte) (base : Nat) (ds : List Byte) : Nat :=
  ds.foldl (fun v c => v * base + table.idxOf c) 0

/-- A digit string of the base that denotes `m`. -/
structure Denotes (table : List Byte) (base : Nat) (ds : List Byte) (m : Nat) : Prop where
  nonempty : ds ≠ []
  digits : ∀ c ∈ ds, table.idxOf c < base
  value : stringValue table base ds = m

/-- `width` less what has to be printed, which `size` counts down from. -/
def sizeLeft (num : BitVec 32) (base : Nat) (width precision : Int) (type : FormatFlags) : Int :=
  width - (signChar num type).toList.length - (specialText base type).length -
    max ((digitsOf base (magnitude num type)).length : Int) precision

/-- How far below zero the padding loops take `size` before the last test of it. -/
def sizeBelow (type : FormatFlags) : Int := if type.left then 0 else if type.zeropad then 1 else 2

variable {base m : Nat} {num : BitVec 32} {type : FormatFlags} {table ds : List Byte}

/-! The digits. -/

theorem magnitude_lt (num : BitVec 32) (type : FormatFlags) : magnitude num type < 2 ^ 32 := by
  have hlow := num.le_toInt
  have hhigh := num.toInt_lt
  have hword := num.isLt
  unfold magnitude
  split <;> omega

/-- A word has at most 32 digits. -/
theorem length_digitsOf (hbase : 2 ≤ base) (hm : m < 2 ^ 32) : (digitsOf base m).length ≤ 32 := by
  unfold digitsOf
  split
  · decide
  · rw [Nat.digits_length_le_iff hbase]
    exact hm.trans_le (Nat.pow_le_pow_left hbase 32)

theorem digitsOf_lt (hbase : 2 ≤ base) {i : Nat} (hi : i ∈ digitsOf base m) : i < base := by
  unfold digitsOf at hi
  split at hi
  · rw [List.mem_singleton.mp hi]
    omega
  · exact Nat.digits_lt_base hbase hi

theorem ofDigits_digitsOf (base m : Nat) : Nat.ofDigits base (digitsOf base m) = m := by
  unfold digitsOf
  split
  next hzero => simp [hzero]
  · exact Nat.ofDigits_digits base m

/-- The loop that fills `tmp` writes the digits of the number. -/
theorem numberDigits_eq (table : List Byte) (hbase : 2 ≤ base) {room : Nat}
    (hroom : (Nat.digits base m).length ≤ room) :
    numberDigits table base room m = (Nat.digits base m).map fun i => table.getD i 0 := by
  induction room generalizing m with
  | zero =>
    rw [List.length_eq_zero_iff.mp (Nat.le_zero.mp hroom)]
    rfl
  | succ room ih =>
    rw [numberDigits]
    split
    next hzero => simp [hzero]
    next hne =>
      rw [Nat.digits_def' hbase (Nat.pos_of_ne_zero hne), List.length_cons] at hroom
      rw [Nat.digits_def' hbase (Nat.pos_of_ne_zero hne), List.map_cons,
        ih (Nat.le_of_succ_le_succ hroom)]

/-- Each digit has a character of its own. -/
theorem idxOf_digitTable (type : FormatFlags) {i : Nat} (hi : i < 36) :
    (digitTable type).idxOf ((digitTable type).getD i 0) = i := by
  have hlow : ∀ j : Fin 36, lowDigits.idxOf (lowDigits.getD j.val 0) = j.val := by decide
  have hupper : ∀ j : Fin 36, upperDigits.idxOf (upperDigits.getD j.val 0) = j.val := by decide
  unfold digitTable
  split
  · exact hupper ⟨i, hi⟩
  · exact hlow ⟨i, hi⟩

theorem digitTable_zero (type : FormatFlags) : (digitTable type).getD 0 0 = ascii '0' := by
  unfold digitTable
  split <;> rfl

/-- What `tmp` holds, from the last digit on. -/
def tmpDigits (num : BitVec 32) (base : Nat) (type : FormatFlags) : List Byte :=
  (digitsOf base (magnitude num type)).map fun i => (digitTable type).getD i 0

/-- Zeros in front do not change what a string denotes. -/
theorem denotes_tmpDigits (num : BitVec 32) (type : FormatFlags) (hbase : 2 ≤ base ∧ base ≤ 36)
    (zeros : Nat) :
    Denotes (digitTable type) base
      (List.replicate zeros (ascii '0') ++ (tmpDigits num base type).reverse)
      (magnitude num type) := by
  have hindex : ∀ i ∈ digitsOf base (magnitude num type), i < 36 := fun i hi =>
    (digitsOf_lt hbase.1 hi).trans_le hbase.2
  have hzero : (digitTable type).idxOf (ascii '0') = 0 := by
    rw [← digitTable_zero type]
    exact idxOf_digitTable type (by decide)
  refine ⟨?_, ?_, ?_⟩
  · have hne : digitsOf base (magnitude num type) ≠ [] := by
      unfold digitsOf
      split
      · exact List.cons_ne_nil _ _
      next hm => exact Nat.digits_ne_nil_iff_ne_zero.mpr hm
    simp [tmpDigits, hne]
  · intro c hc
    rcases List.mem_append.mp hc with hfront | hdigit
    · rw [List.eq_of_mem_replicate hfront, hzero]
      omega
    · rw [List.mem_reverse] at hdigit
      obtain ⟨i, hi, rfl⟩ := List.mem_map.mp hdigit
      rw [idxOf_digitTable type (hindex i hi)]
      exact digitsOf_lt hbase.1 hi
  · have hfront : (List.replicate zeros (ascii '0')).foldl
        (fun v c => v * base + (digitTable type).idxOf c) 0 = 0 := by
      induction zeros with
      | zero => rfl
      | succ zeros ih => rw [List.replicate_succ, List.foldl_cons, hzero, zero_mul, zero_add, ih]
    rw [stringValue, List.foldl_append, hfront, List.foldl_reverse, tmpDigits, List.foldr_map]
    have hfold : ∀ l : List Nat, (∀ i ∈ l, i < 36) → l.foldr
        (fun i v => v * base + (digitTable type).idxOf ((digitTable type).getD i 0)) 0 =
          Nat.ofDigits base l := by
      intro l hl
      induction l with
      | nil => rfl
      | cons i l ih =>
        rw [List.forall_mem_cons] at hl
        rw [List.foldr_cons, ih hl.2, idxOf_digitTable type hl.1, Nat.ofDigits_cons]
        ring
    rw [hfold _ hindex, ofDigits_digitsOf]

/-! The loops and the counter. -/

theorem toNat_negated (hneg : num.toInt < 0) : (-num).toNat = num.toInt.natAbs := by
  have hcond := num.toInt_eq_toNat_cond
  have hword := num.isLt
  rw [BitVec.toNat_neg]
  split at hcond <;> omega

/-- The number without its sign, and the rest of the width. -/
theorem numberSign_eq (num : BitVec 32) (type : FormatFlags) {width : Int}
    (hwidth : -1 ≤ width ∧ width < 2 ^ 31) :
    ∃ rest, numberSign num width type =
        (signChar num type, rest, width - (signChar num type).toList.length) ∧
      rest.toNat = magnitude num type := by
  have hless : toInt (width - 1) = width - 1 := toInt_of_fits (by omega) (by omega)
  have hcond := num.toInt_eq_toNat_cond
  unfold numberSign signChar magnitude
  cases type.sign with
  | false => exact ⟨num, by simp, rfl⟩
  | true =>
    simp only [if_true]
    by_cases hneg : num.toInt < 0
    · exact ⟨-num, by simp [hneg, hless], toNat_negated hneg⟩
    · have habs : num.toNat = num.toInt.natAbs := by
        split at hcond <;> omega
      refine ⟨num, ?_, habs⟩
      cases type.plus <;> cases type.space <;> simp [hneg, hless]

theorem tmp_eq (hbase : 2 ≤ base) {rest : BitVec 32} (hrest : rest.toNat = magnitude num type) :
    (if rest = 0 then [ascii '0'] else numberDigits (digitTable type) base 66 rest.toNat) =
      tmpDigits num base type := by
  unfold tmpDigits digitsOf
  by_cases hzero : rest = 0
  · have hm : magnitude num type = 0 := by rw [← hrest, hzero]; rfl
    rw [if_pos hzero, if_pos hm, List.map_singleton, digitTable_zero]
  · have hm : magnitude num type ≠ 0 := by
      rw [← hrest]
      exact fun h => hzero (BitVec.eq_of_toNat_eq h)
    have hlength := length_digitsOf hbase (magnitude_lt num type)
    rw [digitsOf, if_neg hm] at hlength
    rw [if_neg hzero, if_neg hm, hrest, numberDigits_eq _ hbase (by omega)]

/-- The widths of the prefix, as the source takes them off. -/
theorem special_width (base : Nat) (type : FormatFlags) (size : Int)
    (hsize : -2 ≤ size ∧ size < 2 ^ 31) :
    (if type.special then
      if base = 16 then toInt (size - 2) else if base = 8 then toInt (size - 1) else size
      else size) = size - (specialText base type).length := by
  have htwo : toInt (size - 2) = size - 2 := toInt_of_fits (by omega) (by omega)
  have hone : toInt (size - 1) = size - 1 := toInt_of_fits (by omega) (by omega)
  unfold specialText
  cases type.special with
  | false => simp
  | true =>
    by_cases h16 : base = 16
    · subst h16
      simp [htwo, text]
    · by_cases h8 : base = 8
      · subst h8
        simp [hone, text]
      · simp [h16, h8]

/-- The three loops that pad; ZEROPAD has no effect beside LEFT. -/
def paddings (left zeropad : Bool) (size : Int) : List Byte × List Byte × List Byte :=
  let c := if zeropad then ascii '0' else ascii ' '
  let (lead, size) := if zeropad ∨ left then ([], size) else pad (ascii ' ') 0 size
  let (fill, size) := if left then ([], size) else pad c 0 size
  (lead, fill, (pad (ascii ' ') 0 size).1)

/-- Only one of the loops writes; `size` does not wrap around before the last one. -/
theorem paddings_eq (type : FormatFlags) {size : Int} (hlow : -2 ^ 31 + sizeBelow type ≤ size)
    (hhigh : size < 2 ^ 31) :
    paddings type.left (type.zeropad && !type.left) size =
      if type.left then ([], [], List.replicate size.toNat (ascii ' '))
      else if type.zeropad then ([], List.replicate size.toNat (ascii '0'), [])
      else (List.replicate size.toNat (ascii ' '), [], []) := by
  have hpad : ∀ c, -2 ^ 31 ≤ size → pad c 0 size =
      (List.replicate size.toNat c, toInt (min size 0 - 1)) := by
    intro c hsize
    rw [pad_eq c le_rfl hsize hhigh, Int.sub_zero]
  have hdone := fun c n => pad_done c 0 n
  unfold sizeBelow at hlow
  unfold paddings
  cases hleft : type.left with
  | true =>
    simp only [hleft, if_true, add_zero] at hlow
    simp [hpad _ hlow]
  | false =>
    cases hzeropad : type.zeropad with
    | true =>
      simp only [hleft, hzeropad, Bool.false_eq_true, if_false, if_true] at hlow
      have hfits : toInt (min size 0 - 1) = min size 0 - 1 := toInt_of_fits (by omega) (by omega)
      simp [hpad _ (by omega), hfits, hdone _ (min size 0 - 1) (by omega)]
    | false =>
      simp only [hleft, hzeropad, Bool.false_eq_true, if_false] at hlow
      have hfits : toInt (min size 0 - 1) = min size 0 - 1 := toInt_of_fits (by omega) (by omega)
      have hsecond : pad (ascii ' ') 0 (min size 0 - 1) = ([], min size 0 - 1 - 1) := by
        rw [pad_eq _ le_rfl (by omega) (by omega), toInt_of_fits (by omega) (by omega)]
        congr 1
        · rw [show (min size 0 - 1 - 0).toNat = 0 by omega, List.replicate_zero]
        · omega
      simp [hpad _ (by omega), hfits, hsecond, hdone _ (min size 0 - 1 - 1) (by omega)]

theorem number_eq (num : BitVec 32) (type : FormatFlags) {width precision : Int}
    (hbase : 2 ≤ base ∧ base ≤ 36) (hwidth : -1 ≤ width ∧ width < 2 ^ 31)
    (hprecision : -1 ≤ precision ∧ precision < 2 ^ 31) :
    ∃ padding, padding = paddings type.left (type.zeropad && !type.left)
        (toInt (sizeLeft num base width precision type)) ∧
      number num base width precision type = some
        (padding.1 ++ (signChar num type).toList ++ specialText base type ++ padding.2.1 ++
          List.replicate (precision.toNat - (tmpDigits num base type).length) (ascii '0') ++
          (tmpDigits num base type).reverse ++ padding.2.2) := by
  refine ⟨_, rfl, ?_⟩
  have hlength := length_digitsOf hbase.1 (magnitude_lt num type)
  have htmp : (tmpDigits num base type).length = (digitsOf base (magnitude num type)).length :=
    List.length_map _
  obtain ⟨rest, hsign, hrest⟩ := numberSign_eq num type hwidth
  have hmax : (if precision < (tmpDigits num base type).length then
      ((tmpDigits num base type).length : Int) else precision) =
        max ((digitsOf base (magnitude num type)).length : Int) precision := by
    rw [htmp]
    split <;> omega
  have hzeros : (pad (ascii '0') (tmpDigits num base type).length
      (max ((digitsOf base (magnitude num type)).length : Int) precision)).1 =
        List.replicate (precision.toNat - (tmpDigits num base type).length) (ascii '0') := by
    have hcount : (max ((digitsOf base (magnitude num type)).length : Int) precision -
        (tmpDigits num base type).length).toNat =
          precision.toNat - (tmpDigits num base type).length := by
      rw [htmp]
      omega
    rw [pad_eq _ (by omega) (by omega) (by omega), hcount]
  have hsignLength : (signChar num type).toList.length ≤ 1 := Option.length_toList_le
  have hspecial := special_width base type (width - (signChar num type).toList.length) (by omega)
  have hmark : (if type.special then if base = 8 then [ascii '0']
      else if base = 16 then [ascii '0', lowDigits.getD 33 0] else [] else []) =
        specialText base type := rfl
  have hrange : ¬ (base < 2 ∨ 36 < base) := by omega
  have hdig : (if type.large then upperDigits else lowDigits) = digitTable type := rfl
  unfold number paddings
  cases hleft : type.left with
  | true =>
    have hsign' : numberSign num width { type with zeropad := false, left := true } =
      (signChar num type, rest, width - (signChar num type).toList.length) := hsign
    simp only [hrange, hdig, hsign', hspecial, tmp_eq hbase.1 hrest, hmax, hzeros, hmark, if_true,
      if_false, sizeLeft, Bool.false_eq_true, Bool.and_false, Bool.not_true, or_true]
  | false =>
    simp only [hrange, hdig, hsign, hspecial, tmp_eq hbase.1 hrest, hmax, hzeros, hmark,
      if_false, sizeLeft, hleft, Bool.false_eq_true, Bool.and_true, Bool.not_false, or_false]

/-- What `number` prints in a field of `width` characters: spaces on one side, the
sign, the prefix, and a digit string for the number. -/
structure Prints (num : BitVec 32) (base : Nat) (width precision : Int) (type : FormatFlags)
    (out : List Byte) : Prop where
  shape : ∃ before digits after, Denotes (digitTable type) base digits (magnitude num type) ∧
    out = List.replicate before (ascii ' ') ++ (signChar num type).toList ++
      specialText base type ++ digits ++ List.replicate after (ascii ' ')
  length : (out.length : Int) = max width ((signChar num type).toList.length +
    (specialText base type).length + max ((digitsOf base (magnitude num type)).length : Int)
      precision)
  temporary : (digitsOf base (magnitude num type)).length ≤ 66

/-- The digits with the zeros that the precision asks for. -/
def digitText (num : BitVec 32) (base : Nat) (precision : Int) (type : FormatFlags) : List Byte :=
  List.replicate (precision.toNat - (tmpDigits num base type).length) (ascii '0') ++
    (tmpDigits num base type).reverse

/-- A number in its field. LEFT fills the field up behind the digits, ZEROPAD in front of
them, and else the sign stands behind the spaces. -/
def numberText (num : BitVec 32) (base : Nat) (width precision : Int) (type : FormatFlags) :
    List Byte :=
  let front := (signChar num type).toList ++ specialText base type
  let digits := digitText num base precision type
  let fill := List.replicate (width - front.length - digits.length).toNat
  if type.left then front ++ digits ++ fill (ascii ' ')
  else if type.zeropad then front ++ fill (ascii '0') ++ digits
  else fill (ascii ' ') ++ front ++ digits

theorem length_tmpDigits (num : BitVec 32) (base : Nat) (type : FormatFlags) :
    (tmpDigits num base type).length = (digitsOf base (magnitude num type)).length :=
  List.length_map _

theorem length_digitText (num : BitVec 32) (base : Nat) {precision : Int} (type : FormatFlags)
    (hprecision : -1 ≤ precision) :
    ((digitText num base precision type).length : Int) =
      max ((digitsOf base (magnitude num type)).length : Int) precision := by
  unfold digitText
  rw [List.length_append, List.length_replicate, List.length_reverse, length_tmpDigits]
  omega

/-- The width that the sign, the prefix and the digits leave. -/
theorem sizeLeft_eq (num : BitVec 32) (base : Nat) (width : Int) {precision : Int}
    (type : FormatFlags) (hprecision : -1 ≤ precision) :
    sizeLeft num base width precision type =
      width - ((signChar num type).toList ++ specialText base type).length -
        (digitText num base precision type).length := by
  rw [sizeLeft, length_digitText num base type hprecision, List.length_append]
  omega

/-- The counter keeps what the padding loops take from it. -/
def NumberFits (num : BitVec 32) (base : Nat) (width precision : Int) (type : FormatFlags) : Prop :=
  -2 ^ 31 + sizeBelow type ≤ sizeLeft num base width precision type

instance (num : BitVec 32) (base : Nat) (width precision : Int) (type : FormatFlags) :
    Decidable (NumberFits num base width precision type) :=
  inferInstanceAs (Decidable (_ ≤ _))

theorem number_writes (num : BitVec 32) (type : FormatFlags) {width precision : Int}
    (hbase : 2 ≤ base ∧ base ≤ 36) (hwidth : -1 ≤ width ∧ width < 2 ^ 31)
    (hprecision : -1 ≤ precision ∧ precision < 2 ^ 31)
    (hsize : NumberFits num base width precision type) :
    number num base width precision type = some (numberText num base width precision type) := by
  have hbelow : 0 ≤ sizeBelow type := by
    unfold sizeBelow
    split_ifs <;> decide
  have hhigh : sizeLeft num base width precision type < 2 ^ 31 := by
    unfold sizeLeft
    omega
  unfold NumberFits at hsize
  obtain ⟨padding, hpadding, hnumber⟩ := number_eq num type hbase hwidth hprecision
  rw [toInt_of_fits (by omega) hhigh, paddings_eq type hsize hhigh,
    sizeLeft_eq num base width type hprecision.1] at hpadding
  rw [hnumber, hpadding, numberText]
  unfold digitText
  generalize (signChar num type).toList = sign
  split
  · simp only [List.append_assoc, List.nil_append]
  split
  · simp only [List.append_assoc, List.nil_append, List.append_nil]
  · simp only [List.append_assoc, List.append_nil]

/-- The field has the parts of the number and its width. -/
theorem numberText_prints (num : BitVec 32) (type : FormatFlags) {width precision : Int}
    (hbase : 2 ≤ base ∧ base ≤ 36) (hprecision : -1 ≤ precision) :
    Prints num base width precision type (numberText num base width precision type) := by
  have hlength := length_digitsOf hbase.1 (magnitude_lt num type)
  have hdigits := length_digitText num base type hprecision
  have hdenotes := denotes_tmpDigits num type hbase
  unfold numberText
  dsimp only
  generalize hroom : (width - ((signChar num type).toList ++ specialText base type).length -
    (digitText num base precision type).length).toNat = room
  rw [List.length_append] at hroom
  refine ⟨?_, ?_, by omega⟩
  · unfold digitText
    generalize precision.toNat - (tmpDigits num base type).length = zeros
    split
    · refine ⟨0, _, room, hdenotes zeros, ?_⟩
      simp only [List.append_assoc, List.replicate_zero, List.nil_append]
    split
    · refine ⟨0, _, 0, hdenotes (room + zeros), ?_⟩
      simp only [← List.replicate_append_replicate, List.append_assoc, List.replicate_zero,
        List.nil_append, List.append_nil]
    · refine ⟨room, _, 0, hdenotes zeros, ?_⟩
      simp only [List.append_assoc, List.replicate_zero, List.append_nil]
  · have htotal : ∀ out : List Byte, out.length = room + (signChar num type).toList.length +
        (specialText base type).length + (digitText num base precision type).length →
          (out.length : Int) = max width ((signChar num type).toList.length +
            (specialText base type).length +
              max ((digitsOf base (magnitude num type)).length : Int) precision) := by
      intro out hout
      omega
    apply htotal
    split_ifs <;> simp only [List.length_append, List.length_replicate] <;> omega

theorem number_prints (num : BitVec 32) (type : FormatFlags) {width precision : Int}
    (hbase : 2 ≤ base ∧ base ≤ 36) (hwidth : -1 ≤ width ∧ width < 2 ^ 31)
    (hprecision : -1 ≤ precision ∧ precision < 2 ^ 31)
    (hsize : -2 ^ 31 + sizeBelow type ≤ sizeLeft num base width precision type) :
    ∃ out, number num base width precision type = some out ∧
      Prints num base width precision type out :=
  ⟨_, number_writes num type hbase hwidth hprecision hsize,
    numberText_prints num type hbase hprecision.1⟩

/-- `-num` is `num` for the smallest number, and its digits are taken as unsigned. -/
theorem smallest_prints : number 0x80000000 10 12 (-1) { sign := true } =
      some (text " -2147483648") ∧
    Prints 0x80000000 10 12 (-1) { sign := true } (text " -2147483648") := by
  have hprinted : number 0x80000000 10 12 (-1) { sign := true } = some (text " -2147483648") := by
    decide +kernel
  have hsize : -2 ^ 31 + sizeBelow { sign := true } ≤
      sizeLeft 0x80000000 10 12 (-1) { sign := true } := by
    have hlength := length_digitsOf (show 2 ≤ 10 by decide)
      (magnitude_lt 0x80000000 { sign := true })
    have hsign : (signChar 0x80000000 { sign := true }).toList.length = 1 := by decide
    have hspecial : (specialText 10 { sign := true }).length = 0 := by decide
    have hbelow : sizeBelow { sign := true } = 2 := by decide
    unfold sizeLeft
    omega
  obtain ⟨out, hout, hprints⟩ := number_prints 0x80000000 { sign := true } (by decide)
    (by decide) (by decide) hsize
  rw [hprinted] at hout
  cases hout
  exact ⟨hprinted, hprints⟩

/-- With this precision `size` is `-2 ^ 31`; the first loop takes it to `2 ^ 31 - 1`, and
the second one writes as many spaces. -/
theorem largest_precision_wraps :
    ¬ ∃ out, number 0 10 (-1) (2 ^ 31 - 1) {} = some out ∧
      Prints 0 10 (-1) (2 ^ 31 - 1) {} out := by
  rintro ⟨out, hout, hprints⟩
  have hone : (digitsOf 10 (magnitude 0 {})).length = 1 := by decide
  have hsign : (signChar 0 {}).toList.length = 0 := by decide
  have hspecial : (specialText 10 {}).length = 0 := by decide
  have hsize : sizeLeft 0 10 (-1) (2 ^ 31 - 1) {} = -2 ^ 31 := by
    unfold sizeLeft
    omega
  have hlength := hprints.length
  obtain ⟨padding, hpadding, hnumber⟩ :=
    @number_eq 10 0 {} (-1) (2 ^ 31 - 1) (by decide) (by decide) (by decide)
  have hfirst : pad (ascii ' ') 0 (toInt (-2 ^ 31)) = ([], 2 ^ 31 - 1) := by
    rw [toInt_of_fits (by decide) (by decide), pad_eq _ le_rfl (by decide) (by decide)]
    rfl
  have hsecond : (pad (ascii ' ') 0 (2 ^ 31 - 1)).1.length = 2 ^ 31 - 1 := by
    rw [pad_eq _ le_rfl (by decide) (by decide), List.length_replicate]
    omega
  have hfill : padding.2.1.length = 2 ^ 31 - 1 := by
    have hplain : ∀ size, (paddings false false size).2.1 =
        (pad (ascii ' ') 0 (pad (ascii ' ') 0 size).2).1 := fun size => rfl
    have hflags : paddings ({} : FormatFlags).left
        (({} : FormatFlags).zeropad && !({} : FormatFlags).left) = paddings false false := rfl
    rw [hpadding, hsize, hflags, hplain, hfirst, hsecond]
  have htmp : (tmpDigits 0 10 {}).length = 1 := by decide
  rw [hnumber] at hout
  cases hout
  simp only [List.length_append, List.length_reverse] at hlength
  omega

/-- PLUS without SIGN prints no sign. -/
theorem unsigned_plus_prints_no_sign :
    number 5 10 (-1) (-1) { plus := true } = some (text "5") ∧
      ((text "5").length : Int) ≠ max (-1) (1 + 0 + max 1 (-1)) := by
  decide +kernel

/-- Neither the length nor the sign is always the one asked for. -/
theorem wrapped_size_and_unsigned_plus :
    (¬ ∃ out, number 0 10 (-1) (2 ^ 31 - 1) {} = some out ∧
      Prints 0 10 (-1) (2 ^ 31 - 1) {} out) ∧
    number 5 10 (-1) (-1) { plus := true } = some (text "5") ∧
      ((text "5").length : Int) ≠ max (-1) (1 + 0 + max 1 (-1)) :=
  ⟨largest_precision_wraps, unsigned_plus_prints_no_sign⟩

end PosixRtos.Libc
