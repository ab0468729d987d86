import PosixRtos.Libc.Strings

/-! `vsprintf` of `stdio.c` with the functions it calls. The format is read
through an index, and what is written to `str` is collected in a list; `flt` is a
parameter. An `int` wraps around. -/
namespace PosixRtos.Libc

open PosixRtos.Library.ByteMemory

/-- The value that an `int` holds. -/
def toInt (n : Int) : Int := n.bmod (2 ^ 32)

theorem toInt_of_fits {n : Int} (hlow : -2 ^ 31 ≤ n) (hhigh : n < 2 ^ 31) : toInt n = n := by
  unfold toInt Int.bmod
  dsimp only
  split_ifs <;> omega

theorem toInt_fits (n : Int) : -2 ^ 31 ≤ toInt n ∧ toInt n < 2 ^ 31 := by
  unfold toInt Int.bmod
  dsimp only
  split_ifs <;> omega

/-- The bits of `flags`. -/
structure FormatFlags where
  zeropad : Bool := false
  sign : Bool := false
  plus : Bool := false
  space : Bool := false
  left : Bool := false
  special : Bool := false
  large : Bool := false
deriving DecidableEq

def lowDigits : List Byte := text "0123456789abcdefghijklmnopqrstuvwxyz"

def upperDigits : List Byte := text "0123456789ABCDEFGHIJKLMNOPQRSTUVWXYZ"

def isDigit (c : Byte) : Bool := ascii '0' ≤ c ∧ c ≤ ascii '9'

/-- `while (len < size--) *str++ = c`: what is written, and `size` behind the loop. -/
def padLoop (c : Byte) (len : Int) : Nat → Int → List Byte × Int
  | 0, size => ([], size)
  | turns + 1, size =>
      if len < size then
        let (out, size) := padLoop c len turns (toInt (size - 1))
        (c :: out, size)
      else ([], toInt (size - 1))

def pad (c : Byte) (len size : Int) : List Byte × Int := padLoop c len ((size - len).toNat + 1) size

/-- `while (--size > 0) *str++ = ' '`, from the value that `--size` has first. -/
def padFirstLoop : Nat → Int → List Byte × Int
  | 0, size => ([], size)
  | turns + 1, size =>
      if 0 < size then
        let (out, size) := padFirstLoop turns (toInt (size - 1))
        (ascii ' ' :: out, size)
      else ([], size)

def padFirst (size : Int) : List Byte × Int :=
  let size := toInt (size - 1)
  padFirstLoop (size.toNat + 1) size

/-- The loop of `number` that fills `tmp`, which has room for 66 digits. -/
def numberDigits (dig : List Byte) (base : Nat) : Nat → Nat → List Byte
  | 0, _ => []
  | room + 1, num =>
      if num = 0 then []
      else dig.getD (num % base) 0 :: numberDigits dig base room (num / base)

/-- The sign character, the number without it, and the rest of the width. -/
def numberSign (num : BitVec 32) (size : Int) (type : FormatFlags) :
    Option Byte × BitVec 32 × Int :=
  if type.sign then
    if num.toInt < 0 then (some (ascii '-'), -num, toInt (size - 1))
    else if type.plus then (some (ascii '+'), num, toInt (size - 1))
    else if type.space then (some (ascii ' '), num, toInt (size - 1))
    else (none, num, size)
  else (none, num, size)

/-- `number`; `none` is a null pointer. -/
def number (num : BitVec 32) (base : Nat) (size precision : Int) (type : FormatFlags) :
    Option (List Byte) :=
  let dig := if type.large then upperDigits else lowDigits
  let type := if type.left then { type with zeropad := false } else type
  if base < 2 ∨ 36 < base then none
  else
    let c := if type.zeropad then ascii '0' else ascii ' '
    let (sign, num, size) := numberSign num size type
    let size :=
      if type.special then
        if base = 16 then toInt (size - 2) else if base = 8 then toInt (size - 1) else size
      else size
    let tmp := if num = 0 then [ascii '0'] else numberDigits dig base 66 num.toNat
    let precision := if precision < tmp.length then (tmp.length : Int) else precision
    let size := toInt (size - precision)
    let (lead, size) := if type.zeropad ∨ type.left then ([], size) else pad (ascii ' ') 0 size
    let mark :=
      if type.special then
        if base = 8 then [ascii '0']
        else if base = 16 then [ascii '0', lowDigits.getD 33 0]
        else []
      else []
    let (fill, size) := if type.left then ([], size) else pad c 0 size
    let (zeros, _) := pad (ascii '0') tmp.length precision
    let (trail, _) := pad (ascii ' ') 0 size
    some (lead ++ sign.toList ++ mark ++ fill ++ zeros ++ tmp.reverse ++ trail)

/-- The end that `eaddr`, `iaddr` and `%s` share. -/
def padded (tmp : List Byte) (size : Int) (left : Bool) : List Byte :=
  let (lead, size) := if left then ([], size) else pad (ascii ' ') tmp.length size
  let (trail, _) := pad (ascii ' ') tmp.length size
  lead ++ tmp ++ trail

def hexByte (dig : List Byte) (b : Byte) : List Byte :=
  [dig.getD (b.toNat / 16) 0, dig.getD (b.toNat % 16) 0]

/-- `eaddr`; `none` is a read behind the address. -/
def eaddr (addr : List Byte) (size : Int) (type : FormatFlags) : Option (List Byte) :=
  let dig := if type.large then upperDigits else lowDigits
  if addr.length < 6 then none
  else
    let tmp := ((addr.take 6).map (hexByte dig)).intersperse [ascii ':']
    some (padded tmp.flatten size type.left)

def decimalByte (b : Byte) : List Byte :=
  let n := b.toNat
  let digit (i : Nat) := lowDigits.getD i 0
  if n = 0 then [digit 0]
  else if 100 ≤ n then [digit (n / 100), digit (n % 100 / 10), digit (n % 10)]
  else if 10 ≤ n then [digit (n / 10), digit (n % 10)]
  else [digit n]

def iaddr (addr : List Byte) (size : Int) (type : FormatFlags) : Option (List Byte) :=
  if addr.length < 4 then none
  else
    let tmp := ((addr.take 4).map decimalByte).intersperse [ascii '.']
    some (padded tmp.flatten size type.left)

/-- `strnlen`. -/
def strnlen : List Byte → Nat → Option Nat
  | _, 0 => some 0
  | [], _ + 1 => none
  | c :: s, count + 1 => if c = 0 then some 0 else (strnlen s count).map (· + 1)

/-! The format and the arguments. -/

/-- A string without its terminator. -/
structure CString where
  bytes : List Byte
  noNul : (0 : Byte) ∉ bytes

inductive FormatFault where
  | pastNul
  | badArg
  | endless
deriving DecidableEq

/-- `*fmt`. -/
def CString.at (fmt : CString) (i : Nat) : Except FormatFault Byte :=
  match (fmt.bytes ++ [0])[i]? with
  | some c => .ok c
  | none => .error .pastNul

/-- A value in the argument list; `δ` is `double`. -/
inductive Arg (δ : Type) where
  | int (value : BitVec 32)
  | pointer (address : BitVec 32)
  | string (s : Option (List Byte))
  | address (bytes : List Byte)
  | double (value : δ)
deriving DecidableEq

/-- What has been written, the arguments that are left, and the stores of `%n`. -/
structure Printed (δ : Type) where
  out : List Byte
  args : List (Arg δ)
  stores : List (BitVec 32 × Nat)

variable {δ : Type}

def vaArg (kind : Arg δ → Option α) : List (Arg δ) → Except FormatFault (α × List (Arg δ))
  | [] => .error .badArg
  | arg :: args =>
      match kind arg with
      | some value => .ok (value, args)
      | none => .error .badArg

def Arg.int? : Arg δ → Option (BitVec 32)
  | .int v => some v
  | _ => none

def Arg.pointer? : Arg δ → Option (BitVec 32)
  | .pointer a => some a
  | _ => none

def Arg.string? : Arg δ → Option (Option (List Byte))
  | .string s => some s
  | _ => none

def Arg.address? : Arg δ → Option (List Byte)
  | .address b => some b
  | _ => none

def Arg.double? : Arg δ → Option δ
  | .double v => some v
  | _ => none

/-- The flag that a character sets. -/
def FormatFlags.set (flags : FormatFlags) (c : Byte) : Option FormatFlags :=
  if c = ascii '-' then some { flags with left := true }
  else if c = ascii '+' then some { flags with plus := true }
  else if c = ascii ' ' then some { flags with space := true }
  else if c = ascii '#' then some { flags with special := true }
  else if c = ascii '0' then some { flags with zeropad := true }
  else none

/-- The loop over the flags: `fmt++` comes first. -/
def flagLoop (fmt : CString) : Nat → Nat → FormatFlags → Except FormatFault (Nat × FormatFlags)
  | 0, _, _ => .error .endless
  | turns + 1, i, flags => do
      let i := i + 1
      let c ← fmt.at i
      match flags.set c with
      | some flags => flagLoop fmt turns i flags
      | none => .ok (i, flags)

/-- `skip_atoi`. -/
def skipAtoi (fmt : CString) : Nat → Nat → Int → Except FormatFault (Nat × Int)
  | 0, _, _ => .error .endless
  | turns + 1, i, count => do
      let c ← fmt.at i
      if isDigit c then
        skipAtoi fmt turns (i + 1) (toInt (count * 10 + c.toNat - (ascii '0').toNat))
      else .ok (i, count)

/-- The turns that no loop over the format exceeds. -/
def CString.turns (fmt : CString) : Nat := fmt.bytes.length + 1

def getWidth (fmt : CString) (i : Nat) (flags : FormatFlags) (args : List (Arg δ)) :
    Except FormatFault (Nat × Int × FormatFlags × List (Arg δ)) := do
  let c ← fmt.at i
  if isDigit c then
    let (i, width) ← skipAtoi fmt fmt.turns i 0
    .ok (i, width, flags, args)
  else if c = ascii '*' then
    let (value, args) ← vaArg Arg.int? args
    if value.toInt < 0 then .ok (i + 1, toInt (-value.toInt), { flags with left := true }, args)
    else .ok (i + 1, value.toInt, flags, args)
  else .ok (i, -1, flags, args)

def getPrecision (fmt : CString) (i : Nat) (args : List (Arg δ)) :
    Except FormatFault (Nat × Int × List (Arg δ)) := do
  let c ← fmt.at i
  if c = ascii '.' then
    let i := i + 1
    let c ← fmt.at i
    let (i, precision, args) ←
      if isDigit c then do
        let (i, precision) ← skipAtoi fmt fmt.turns i 0
        .ok (i, precision, args)
      else if c = ascii '*' then do
        let (value, args) ← vaArg Arg.int? args
        .ok (i + 1, value.toInt, args)
      else .ok (i, -1, args)
    .ok (i, if precision < 0 then 0 else precision, args)
  else .ok (i, -1, args)

def isQualifier (c : Byte) : Bool := c = ascii 'h' ∨ c = ascii 'l' ∨ c = ascii 'L'

def getQualifier (fmt : CString) (i : Nat) : Except FormatFault (Nat × Option Byte) := do
  let c ← fmt.at i
  if isQualifier c then .ok (i + 1, some c) else .ok (i, none)

/-- What stands between `%` and the conversion, with the values of `*`. -/
structure Resolved where
  flags : FormatFlags
  width : Int
  precision : Int
  qualifier : Option Byte
deriving DecidableEq

/-- The integer argument: how it is read depends on the qualifier. -/
def integerArg (r : Resolved) (value : BitVec 32) : BitVec 32 :=
  if r.qualifier = some (ascii 'h') then
    if r.flags.sign then (value.truncate 16).signExtend 32 else (value.truncate 16).zeroExtend 32
  else value

/-- The cases of the `switch` over the conversion. -/
inductive Conversion where
  | char
  | string
  | pointer
  | count
  | address (large : Bool)
  | integer (base : Nat) (sign large : Bool)
  | float
  | other
deriving DecidableEq

def conversionOf (c : Byte) : Conversion :=
  if c = ascii 'c' then .char
  else if c = ascii 's' then .string
  else if c = ascii 'p' then .pointer
  else if c = ascii 'n' then .count
  else if c = ascii 'A' then .address true
  else if c = ascii 'a' then .address false
  else if c = ascii 'o' then .integer 8 false false
  else if c = ascii 'X' then .integer 16 false true
  else if c = ascii 'x' then .integer 16 false false
  else if c = ascii 'd' ∨ c = ascii 'i' then .integer 10 true false
  else if c = ascii 'u' then .integer 10 false false
  else if c = ascii 'E' ∨ c = ascii 'G' ∨ c = ascii 'e' ∨ c = ascii 'f' ∨ c = ascii 'g' then .float
  else .other

def Printed.emit (st : Printed δ) (args : List (Arg δ)) (bytes : List Byte) : Printed δ :=
  { st with out := st.out ++ bytes, args := args }

def ofOption : Option α → Except FormatFault α
  | some a => .ok a
  | none => .error .badArg

/-- What `flt` writes. -/
abbrev FloatRenderer (δ : Type) := δ → Int → Int → Byte → FormatFlags → List Byte

/-- The cases that consume an argument. `none` is the `default` case. -/
def convertArg (flt : FloatRenderer δ) (r : Resolved) (c : Byte) (st : Printed δ) :
    Option (Except FormatFault (Printed δ)) :=
  match conversionOf c with
  | .char => some do
      let (value, args) ← vaArg Arg.int? st.args
      let (lead, width) := if r.flags.left then ([], r.width) else padFirst r.width
      let (trail, _) := padFirst width
      .ok (st.emit args (lead ++ [value.truncate 8] ++ trail))
  | .string => some do
      let (s, args) ← vaArg Arg.string? st.args
      let s := s.getD (text "<NULL>" ++ [0])
      let len ← ofOption (strnlen s (r.precision % 2 ^ 32).toNat)
      .ok (st.emit args (padded (s.take len) r.width r.flags.left))
  | .pointer => some do
      let (value, args) ← vaArg Arg.pointer? st.args
      let (width, flags) :=
        if r.width = -1 then (8, { r.flags with zeropad := true }) else (r.width, r.flags)
      let bytes ← ofOption (number value 16 width r.precision flags)
      .ok (st.emit args bytes)
  | .count => some do
      let (address, args) ← vaArg Arg.pointer? st.args
      .ok { st with args := args, stores := st.stores ++ [(address, st.out.length)] }
  | .address large => some do
      let flags := if large then { r.flags with large := true } else r.flags
      let (addr, args) ← vaArg Arg.address? st.args
      let bytes ← ofOption <|
        if r.qualifier = some (ascii 'l') then eaddr addr r.width flags
        else iaddr addr r.width flags
      .ok (st.emit args bytes)
  | .integer base sign large => some do
      let flags := { r.flags with sign := r.flags.sign || sign, large := r.flags.large || large }
      let (value, args) ← vaArg Arg.int? st.args
      let num := integerArg { r with flags := flags } value
      let bytes ← ofOption (number num base r.width r.precision flags)
      .ok (st.emit args bytes)
  | .float => some do
      let (value, args) ← vaArg Arg.double? st.args
      .ok (st.emit args (flt value r.width r.precision c { r.flags with sign := true }))
  | .other => none

/-- The `switch` at `fmt`. The `default` case writes the character itself, or steps
back from the terminator. -/
def convert (flt : FloatRenderer δ) (fmt : CString) (i : Nat) (r : Resolved) (st : Printed δ) :
    Except FormatFault (Nat × Printed δ) := do
  let c ← fmt.at i
  match convertArg flt r c st with
  | some result => do
      let st ← result
      .ok (i, st)
  | none =>
      let st := if c ≠ ascii '%' then st.emit st.args [ascii '%'] else st
      if c ≠ 0 then .ok (i, st.emit st.args [c]) else .ok (i - 1, st)

/-- The body of the loop at a `%`. -/
def directiveAt (flt : FloatRenderer δ) (fmt : CString) (i : Nat) (st : Printed δ) :
    Except FormatFault (Nat × Printed δ) := do
  let (i, flags) ← flagLoop fmt fmt.turns i {}
  let (i, width, flags, args) ← getWidth fmt i flags st.args
  let (i, precision, args) ← getPrecision fmt i args
  let (i, qualifier) ← getQualifier fmt i
  convert flt fmt i ⟨flags, width, precision, qualifier⟩ { st with args := args }

/-- The loop of `vsprintf` from `fmt[i]` on. -/
def vsprintfLoop (flt : FloatRenderer δ) (fmt : CString) :
    Nat → Nat → Printed δ → Except FormatFault (Printed δ)
  | 0, _, _ => .error .endless
  | turns + 1, i, st => do
      let c ← fmt.at i
      if c = 0 then .ok st
      else if c ≠ ascii '%' then vsprintfLoop flt fmt turns (i + 1) (st.emit st.args [c])
      else
        let (i, st) ← directiveAt flt fmt i st
        vsprintfLoop flt fmt turns (i + 1) st

/-- `vsprintf`: the bytes in `buf`, the stores of `%n` and the value it returns. -/
def vsprintf (flt : FloatRenderer δ) (fmt : CString) (args : List (Arg δ)) :
    Except FormatFault (List Byte × List (BitVec 32 × Nat) × Nat) := do
  let st ← vsprintfLoop flt fmt fmt.turns 0 ⟨[], args, []⟩
  .ok (st.out ++ [0], st.stores, st.out.length)

end PosixRtos.Libc
