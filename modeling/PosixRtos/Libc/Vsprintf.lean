import PosixRtos.Libc.Grammar
import PosixRtos.Libc.Number

/-! `vsprintf` reads the format language: its loops over the index follow the
grammar, stop at the terminator, and write what the items render. -/
namespace PosixRtos.Libc

open PosixRtos.Library.ByteMemory

variable {δ : Type} {fmt : CString} {i turns : Nat} {rest : List Byte} {c : Byte}

@[simp] theorem ok_bind (a : α) (f : α → Except FormatFault β) : (Except.ok a >>= f) = f a := rfl

/-- What is left of the format at index `i`. -/
def CString.Rest (fmt : CString) (i : Nat) (rest : List Byte) : Prop :=
  ∃ before, fmt.bytes = before ++ rest ∧ before.length = i

theorem CString.rest_zero (fmt : CString) : fmt.Rest 0 fmt.bytes := ⟨[], rfl, rfl⟩

theorem CString.Rest.at_cons (h : fmt.Rest i (c :: rest)) : fmt.at i = .ok c := by
  obtain ⟨before, hbytes, rfl⟩ := h
  simp [CString.at, hbytes]

theorem CString.Rest.at_nil (h : fmt.Rest i []) : fmt.at i = .ok 0 := by
  obtain ⟨before, hbytes, rfl⟩ := h
  simp [CString.at, hbytes]

theorem CString.Rest.tail (h : fmt.Rest i (c :: rest)) : fmt.Rest (i + 1) rest := by
  obtain ⟨before, hbytes, rfl⟩ := h
  exact ⟨before ++ [c], by simp [hbytes], by simp⟩

theorem CString.Rest.ne_zero (h : fmt.Rest i (c :: rest)) : ¬ c = 0#8 := by
  obtain ⟨before, hbytes, -⟩ := h
  rintro rfl
  exact fmt.noNul (by simp [hbytes])

theorem CString.Rest.length_lt_turns (h : fmt.Rest i rest) : rest.length < fmt.turns := by
  obtain ⟨before, hbytes, -⟩ := h
  unfold CString.turns
  rw [hbytes, List.length_append]
  omega

/-! The loops over the format. -/

def setFlags (flags : FormatFlags) (cs : List Byte) : FormatFlags :=
  cs.foldl (fun flags c => (flags.set c).getD flags) flags

theorem set_eq_none_iff (flags : FormatFlags) (c : Byte) :
    flags.set c = none ↔ isFlag c = false := by
  unfold isFlag FormatFlags.set
  split_ifs <;> simp

theorem flagLoop_spec (flags : FormatFlags) (h : fmt.Rest (i + 1) rest)
    (hturns : rest.length < turns) :
    ∃ j, flagLoop fmt turns i flags = .ok (j, setFlags flags (rest.takeWhile isFlag)) ∧
      fmt.Rest j (rest.dropWhile isFlag) ∧ i < j := by
  induction rest generalizing turns i flags with
  | nil =>
    obtain ⟨turns, rfl⟩ := Nat.exists_eq_add_of_lt hturns
    refine ⟨i + 1, ?_, h, Nat.lt_succ_self i⟩
    have hstop : flags.set 0#8 = none := (set_eq_none_iff flags 0#8).mpr (by decide)
    simp [flagLoop, h.at_nil, hstop, setFlags]
  | cons c rest ih =>
    obtain ⟨turns, rfl⟩ := Nat.exists_eq_add_of_lt (Nat.zero_lt_of_lt hturns)
    rw [Nat.zero_add] at hturns ⊢
    cases hset : flags.set c with
    | none =>
      have hflag := (set_eq_none_iff flags c).mp hset
      refine ⟨i + 1, ?_, ?_, Nat.lt_succ_self i⟩
      · simp [flagLoop, h.at_cons, hset, hflag, setFlags]
      · simpa [hflag] using h
    | some flags' =>
      have hflag : isFlag c = true := by
        rw [← Bool.not_eq_false, ← set_eq_none_iff flags c, hset]
        exact nofun
      obtain ⟨j, hj, hrest, hlt⟩ := ih flags' h.tail (Nat.lt_of_succ_lt_succ hturns)
      refine ⟨j, ?_, ?_, by omega⟩
      · simp [flagLoop, h.at_cons, hset, hj, hflag, setFlags]
      · simpa [hflag] using hrest

theorem toInt_step (count : Int) (c : Byte) :
    toInt (toInt count * 10 + c.toNat - (ascii '0').toNat) =
      toInt (count * 10 + c.toNat - (ascii '0').toNat) := by
  unfold toInt Int.bmod
  dsimp only
  split_ifs <;> omega

/-- The number that the digits `ds` continue. -/
def decimalFrom (count : Int) (ds : List Byte) : Int :=
  ds.foldl (fun n c => n * 10 + c.toNat - (ascii '0').toNat) count

theorem skipAtoi_spec (count : Int) (h : fmt.Rest i rest) (hturns : rest.length < turns) :
    ∃ j, skipAtoi fmt turns i (toInt count) =
        .ok (j, toInt (decimalFrom count (rest.takeWhile isDigit))) ∧
      fmt.Rest j (rest.dropWhile isDigit) ∧ i ≤ j := by
  induction rest generalizing turns i count with
  | nil =>
    obtain ⟨turns, rfl⟩ := Nat.exists_eq_add_of_lt hturns
    refine ⟨i, ?_, h, le_rfl⟩
    have hstop : isDigit 0#8 = false := by decide
    simp [skipAtoi, h.at_nil, hstop, decimalFrom]
  | cons c rest ih =>
    obtain ⟨turns, rfl⟩ := Nat.exists_eq_add_of_lt (Nat.zero_lt_of_lt hturns)
    rw [Nat.zero_add] at hturns ⊢
    cases hdigit : isDigit c with
    | false =>
      refine ⟨i, ?_, ?_, le_rfl⟩
      · simp [skipAtoi, h.at_cons, hdigit, decimalFrom]
      · simpa [hdigit] using h
    | true =>
      obtain ⟨j, hj, hrest, hle⟩ :=
        ih (count * 10 + c.toNat - (ascii '0').toNat) h.tail (Nat.lt_of_succ_lt_succ hturns)
      refine ⟨j, ?_, ?_, by omega⟩
      · rw [← toInt_step] at hj
        simp [skipAtoi, h.at_cons, hdigit, hj, decimalFrom]
      · simpa [hdigit] using hrest

/-! The parts of a directive. -/

theorem digit_bounds (hc : isDigit c = true) : 48 ≤ c.toNat := by
  have h := of_decide_eq_true hc
  exact BitVec.le_def.mp h.1

/-- On digits the two ways to count agree. -/
theorem decimalFrom_digits {ds : List Byte} (n : Nat) (hds : ∀ c ∈ ds, isDigit c = true) :
    decimalFrom n ds = (ds.foldl (fun n c => n * 10 + (c.toNat - 48)) n : Nat) := by
  induction ds generalizing n with
  | nil => rfl
  | cons c ds ih =>
    have hc := digit_bounds (hds c List.mem_cons_self)
    have hzero : (ascii '0').toNat = 48 := by decide
    have hnext : (n : Int) * 10 + c.toNat - (ascii '0').toNat =
        ((n * 10 + (c.toNat - 48) : Nat) : Int) := by
      rw [hzero]
      omega
    rw [decimalFrom, List.foldl_cons, List.foldl_cons, hnext]
    exact ih _ fun d hd => hds d (List.mem_cons_of_mem c hd)

/-- `skip_atoi` at the beginning of a number. -/
theorem skipAtoi_number (h : fmt.Rest i rest) :
    ∃ j, skipAtoi fmt fmt.turns i 0 = .ok (j, toInt (decimal (rest.takeWhile isDigit))) ∧
      fmt.Rest j (rest.dropWhile isDigit) ∧ i ≤ j := by
  obtain ⟨j, hj, hrest⟩ := skipAtoi_spec 0 h h.length_lt_turns
  have hzero : toInt 0 = 0 := by decide
  have hall := List.all_eq_true.mp (List.all_takeWhile (p := isDigit) (l := rest))
  rw [hzero, show (0 : Int) = ((0 : Nat) : Int) from rfl, decimalFrom_digits 0 hall] at hj
  exact ⟨j, hj, hrest⟩

/-- What the code has for a number of the directive, which may have wrapped. -/
def Keeps (code spec : Int) : Prop := -1 ≤ spec ∧ (spec < 2 ^ 31 → code = spec)

theorem keeps_self {n : Int} (hn : -1 ≤ n) : Keeps n n := ⟨hn, fun _ => rfl⟩

theorem keeps_toInt {n : Int} (hn : 0 ≤ n) : Keeps (toInt n) n :=
  ⟨by omega, fun hfits => toInt_of_fits (by omega) hfits⟩

/-- `if (precision < 0) precision = 0`. -/
def clamp (n : Int) : Int := if n < 0 then 0 else n

theorem keeps_clamp (n : Int) : Keeps (clamp n) (max 0 n) := by
  refine ⟨by omega, fun _ => ?_⟩
  unfold clamp
  split <;> omega

theorem Keeps.clamp {code n : Int} (h : Keeps code n) (hn : 0 ≤ n) : Keeps (Libc.clamp code) n := by
  refine ⟨h.1, fun hfits => ?_⟩
  rw [h.2 hfits]
  exact if_neg (by omega)

theorem getWidth_spec {flags flags' : FormatFlags} {args args' : List (Arg δ)} {width : Int}
    (h : fmt.Rest i rest)
    (hresolve : resolveWidth flags args (parseCount rest).1 = some (width, flags', args')) :
    ∃ j code, getWidth fmt i flags args = .ok (j, code, flags', args') ∧ Keeps code width ∧
      fmt.Rest j (parseCount rest).2 ∧ i ≤ j := by
  cases rest with
  | nil =>
    cases hresolve
    refine ⟨i, -1, ?_, keeps_self le_rfl, h, le_rfl⟩
    have hdigit : isDigit 0#8 = false := by decide
    have hstar : ¬ 0#8 = ascii '*' := by decide
    simp [getWidth, h.at_nil, hdigit, hstar]
  | cons c rest =>
    simp only [parseCount] at hresolve ⊢
    cases hdigit : isDigit c with
    | true =>
      simp only [hdigit, if_true] at hresolve ⊢
      cases hresolve
      obtain ⟨j, hj, hrest, hle⟩ := skipAtoi_number h
      refine ⟨j, _, ?_, keeps_toInt (Int.natCast_nonneg _), hrest, hle⟩
      simp [getWidth, h.at_cons, hdigit, hj]
    | false =>
      simp only [hdigit, Bool.false_eq_true, if_false] at hresolve ⊢
      by_cases hstar : c = ascii '*'
      · subst hstar
        simp only [if_true, resolveWidth] at hresolve ⊢
        split at hresolve
        case h_2 => cases hresolve
        case h_1 value args =>
          have hlow := value.le_toInt
          split at hresolve
          next hneg =>
            cases hresolve
            refine ⟨i + 1, _, ?_, keeps_toInt (n := -value.toInt) (by omega), h.tail, by omega⟩
            simp [getWidth, h.at_cons, hdigit, vaArg, Arg.int?, hneg]
          next hpos =>
            cases hresolve
            refine ⟨i + 1, _, ?_, keeps_self (by omega), h.tail, by omega⟩
            simp [getWidth, h.at_cons, hdigit, vaArg, Arg.int?, hpos]
      · simp only [hstar, if_false] at hresolve ⊢
        cases hresolve
        refine ⟨i, -1, ?_, keeps_self le_rfl, h, le_rfl⟩
        simp [getWidth, h.at_cons, hdigit, hstar]

/-- The precision behind its dot. -/
theorem getPrecision_dot {args args' : List (Arg δ)} {precision : Int}
    (h : fmt.Rest i (ascii '.' :: rest))
    (hresolve : resolvePrecision args (some (parseCount rest).1) = some (precision, args')) :
    ∃ j code, getPrecision fmt i args = .ok (j, code, args') ∧ Keeps code precision ∧
      fmt.Rest j (parseCount rest).2 ∧ i ≤ j := by
  have hat := h.at_cons
  have htail := h.tail
  cases rest with
  | nil =>
    cases hresolve
    refine ⟨i + 1, 0, ?_, keeps_self (by omega), htail, by omega⟩
    have hdigit : isDigit 0#8 = false := by decide
    have hstar : ¬ 0#8 = ascii '*' := by decide
    simp [getPrecision, hat, htail.at_nil, hdigit, hstar]
  | cons c rest =>
    simp only [parseCount] at hresolve ⊢
    cases hdigit : isDigit c with
    | true =>
      simp only [hdigit, if_true] at hresolve ⊢
      cases hresolve
      obtain ⟨j, hj, hrest, hle⟩ := skipAtoi_number htail
      refine ⟨j, clamp (toInt (decimal ((c :: rest).takeWhile isDigit))), ?_,
        (keeps_toInt (Int.natCast_nonneg _)).clamp (Int.natCast_nonneg _), hrest, by omega⟩
      simp [getPrecision, hat, htail.at_cons, hdigit, hj, clamp]
    | false =>
      simp only [hdigit, Bool.false_eq_true, if_false] at hresolve ⊢
      by_cases hstar : c = ascii '*'
      · subst hstar
        simp only [if_true, resolvePrecision] at hresolve ⊢
        split at hresolve
        case h_2 => cases hresolve
        case h_1 value args =>
          cases hresolve
          refine ⟨i + 1 + 1, clamp value.toInt, ?_, keeps_clamp value.toInt, htail.tail, by omega⟩
          simp [getPrecision, hat, htail.at_cons, hdigit, vaArg, Arg.int?, clamp]
      · simp only [hstar, if_false] at hresolve ⊢
        cases hresolve
        refine ⟨i + 1, 0, ?_, keeps_self (by omega), htail, by omega⟩
        simp [getPrecision, hat, htail.at_cons, hdigit, hstar]

theorem getPrecision_spec {args args' : List (Arg δ)} {precision : Int} (h : fmt.Rest i rest)
    (hresolve : resolvePrecision args (parsePrecision rest).1 = some (precision, args')) :
    ∃ j code, getPrecision fmt i args = .ok (j, code, args') ∧ Keeps code precision ∧
      fmt.Rest j (parsePrecision rest).2 ∧ i ≤ j := by
  cases rest with
  | nil =>
    cases hresolve
    refine ⟨i, -1, ?_, keeps_self le_rfl, h, le_rfl⟩
    have hdot : ¬ 0#8 = ascii '.' := by decide
    simp [getPrecision, h.at_nil, hdot]
  | cons c rest =>
    by_cases hdot : c = ascii '.'
    · subst hdot
      simp only [parsePrecision, if_true] at hresolve ⊢
      exact getPrecision_dot h hresolve
    · simp only [parsePrecision, hdot, if_false] at hresolve ⊢
      cases hresolve
      refine ⟨i, -1, ?_, keeps_self le_rfl, h, le_rfl⟩
      simp [getPrecision, h.at_cons, hdot]

theorem getQualifier_spec (h : fmt.Rest i rest) :
    ∃ j, getQualifier fmt i = .ok (j, (parseQualifier rest).1) ∧
      fmt.Rest j (parseQualifier rest).2 ∧ i ≤ j := by
  cases rest with
  | nil =>
    have hnot : isQualifier 0#8 = false := by decide
    refine ⟨i, ?_, h, le_rfl⟩
    simp [getQualifier, h.at_nil, hnot, parseQualifier]
  | cons c rest =>
    cases hqualifier : isQualifier c with
    | true =>
      refine ⟨i + 1, ?_, ?_, by omega⟩
      · simp [getQualifier, h.at_cons, hqualifier, parseQualifier]
      · simpa [parseQualifier, hqualifier] using h.tail
    | false =>
      refine ⟨i, ?_, ?_, le_rfl⟩
      · simp [getQualifier, h.at_cons, hqualifier, parseQualifier]
      · simpa [parseQualifier, hqualifier] using h

/-! The padding loops. -/

theorem padded_eq (tmp : List Byte) {size : Int} (left : Bool) (hlow : -1 ≤ size)
    (hhigh : size < 2 ^ 31) : padded tmp size left = justify size left tmp := by
  unfold padded justify
  cases left with
  | true => simp [pad_eq (ascii ' ') (Int.natCast_nonneg tmp.length) (by omega) hhigh]
  | false =>
    have hfits : toInt (min size tmp.length - 1) = min size tmp.length - 1 :=
      toInt_of_fits (by omega) (by omega)
    have hdone := pad_done (ascii ' ') tmp.length (min size tmp.length - 1) (by omega)
    simp [pad_eq (ascii ' ') (Int.natCast_nonneg tmp.length) (by omega) hhigh, hfits, hdone]

theorem padFirstLoop_eq {size : Int} (hlow : -2 ^ 31 ≤ size) (hhigh : size < 2 ^ 31)
    (hturns : size.toNat < turns) :
    padFirstLoop turns size = (List.replicate size.toNat (ascii ' '), min size 0) := by
  induction turns generalizing size with
  | zero => omega
  | succ turns ih =>
    rw [padFirstLoop]
    split
    next hpos =>
      obtain ⟨n, hn⟩ : ∃ n, size.toNat = n + 1 := ⟨size.toNat - 1, by omega⟩
      have hprev : (size - 1).toNat = n := by omega
      rw [toInt_of_fits (by omega) (by omega), ih (by omega) (by omega) (by omega), hn, hprev,
        List.replicate_succ]
      dsimp only
      congr 1
      omega
    next hle =>
      rw [show size.toNat = 0 by omega, List.replicate_zero]
      congr 1
      omega

theorem padFirst_eq {size : Int} (hlow : -2 ^ 31 < size) (hhigh : size < 2 ^ 31) :
    padFirst size = (List.replicate (size - 1).toNat (ascii ' '), min (size - 1) 0) := by
  unfold padFirst
  dsimp only
  rw [toInt_of_fits (by omega) (by omega),
    padFirstLoop_eq (by omega) (by omega) (Nat.lt_succ_self _)]

/-! The conversions. -/

/-- `%c`: the second loop writes the spaces that the first one has left. -/
theorem char_justified {width : Int} (left : Bool) (b : Byte) (hlow : -1 ≤ width)
    (hhigh : width < 2 ^ 31) :
    (if left then (([] : List Byte), width) else padFirst width).1 ++ [b] ++
      (padFirst (if left then (([] : List Byte), width) else padFirst width).2).1 =
        justify width left [b] := by
  unfold justify
  cases left with
  | true => simp [padFirst_eq (by omega : -2 ^ 31 < width) hhigh]
  | false =>
    have hsecond := padFirst_eq (show -2 ^ 31 < min (width - 1) 0 by omega) (by omega)
    simp [padFirst_eq (by omega : -2 ^ 31 < width) hhigh, hsecond]

theorem strnlen_eq {s : List Byte} {count : Nat} (h : 0 ∈ s.take count ∨ count ≤ s.length) :
    strnlen s count = some ((s.take count).takeWhile (· ≠ 0)).length := by
  induction s generalizing count with
  | nil =>
    obtain rfl : count = 0 := by simpa using h
    rfl
  | cons c s ih =>
    cases count with
    | zero => rfl
    | succ count =>
      rw [strnlen]
      by_cases hc : c = 0
      · simp [hc]
      · have hrest : 0 ∈ s.take count ∨ count ≤ s.length := by
          rcases h with hmem | hle
          · rw [List.take_succ_cons, List.mem_cons] at hmem
            exact .inl (hmem.resolve_left (Ne.symm hc))
          · exact .inr (Nat.le_of_succ_le_succ hle)
        rw [if_neg hc, ih hrest, List.take_succ_cons,
          List.takeWhile_cons_of_pos (by simpa using hc)]
        rfl

/-- The characters that `strnlen` counts. -/
theorem take_strnlen {s : List Byte} {count : Nat} (h : 0 ∈ s.take count ∨ count ≤ s.length) :
    ∃ len, strnlen s count = some len ∧ s.take len = (s.take count).takeWhile (· ≠ 0) := by
  refine ⟨_, strnlen_eq h, ?_⟩
  have hstart : (s.take count).takeWhile (· ≠ 0) <+: s :=
    (List.takeWhile_prefix _).trans (List.take_prefix count s)
  exact (List.prefix_iff_eq_take.mp hstart).symm

/-- A terminated string of the address space ends before `(size_t)-1` bytes. -/
theorem takeWhile_take_size {s : List Byte} (hs : 0 ∈ s) (hlen : s.length ≤ 2 ^ 32) :
    (s.take (2 ^ 32 - 1)).takeWhile (· ≠ 0) = s.takeWhile (· ≠ 0) := by
  rw [← List.take_takeWhile]
  apply List.take_of_length_le
  have hne : s.takeWhile (· ≠ 0) ≠ s := by
    intro heq
    rw [← heq] at hs
    have hall := List.all_eq_true.mp (List.all_takeWhile (p := (· ≠ (0 : Byte))) (l := s)) 0 hs
    simp at hall
  have hlt : (s.takeWhile (· ≠ 0)).length < s.length := by
    have hstart := List.takeWhile_prefix (l := s) (· ≠ (0 : Byte))
    exact Nat.lt_of_le_of_ne hstart.length_le fun h => hne (hstart.eq_of_length h)
  omega

/-- `%s` writes the string cut at the precision. -/
theorem cutString_spec {s cut : List Byte} {precision : Int} (hlow : -1 ≤ precision)
    (hhigh : precision < 2 ^ 31) (hcut : cutString precision s = some cut) :
    ∃ len, strnlen s (precision % 2 ^ 32).toNat = some len ∧ s.take len = cut := by
  obtain ⟨hlen, hkind, hcut⟩ : s.length ≤ 2 ^ 32 ∧
      (0 ∈ (if precision < 0 then s else s.take precision.toNat) ∨
        0 ≤ precision ∧ precision ≤ s.length) ∧
      (if precision < 0 then s else s.take precision.toNat).takeWhile (· ≠ 0) = cut := by
    simpa [cutString, and_assoc] using hcut
  rw [← hcut]
  by_cases hnone : precision < 0
  · have hcount : (precision % 2 ^ 32).toNat = 2 ^ 32 - 1 := by omega
    rw [if_pos hnone] at hkind ⊢
    have hs : 0 ∈ s := hkind.resolve_right fun h => by omega
    rw [hcount, ← takeWhile_take_size hs hlen]
    apply take_strnlen
    by_cases hle : 2 ^ 32 - 1 ≤ s.length
    · exact .inr hle
    · rw [List.take_of_length_le (by omega)]
      exact .inl hs
  · have hcount : (precision % 2 ^ 32).toNat = precision.toNat := by omega
    rw [if_neg hnone] at hkind ⊢
    rw [hcount]
    apply take_strnlen
    rcases hkind with hmem | hle
    · exact .inl hmem
    · exact .inr (by omega)

/-- The code's numbers for a directive. -/
structure Resolved.Codes (code r : Resolved) : Prop where
  flags : code.flags = r.flags
  qualifier : code.qualifier = r.qualifier
  width : Keeps code.width r.width
  precision : Keeps code.precision r.precision

theorem Resolved.Codes.eq {code r : Resolved} (h : code.Codes r) (hwidth : r.width < 2 ^ 31)
    (hprecision : r.precision < 2 ^ 31) : code = r := by
  obtain ⟨flags, width, precision, qualifier⟩ := code
  obtain ⟨rfl, rfl, ⟨-, hcodeWidth⟩, ⟨-, hcodePrecision⟩⟩ := h
  dsimp only at hcodeWidth hcodePrecision
  rw [hcodeWidth hwidth, hcodePrecision hprecision]

/-! The numbers and the addresses. -/

/-- The bases of the conversions. -/
theorem conversionOf_base {base : Nat} {sign large : Bool}
    (h : conversionOf c = .integer base sign large) : 2 ≤ base ∧ base ≤ 36 := by
  have hall : ∀ c : Byte, (match conversionOf c with
      | .integer base _ _ => decide (2 ≤ base ∧ base ≤ 36)
      | _ => true) = true := by
    decide +kernel
  have hc := hall c
  rw [h] at hc
  exact of_decide_eq_true hc

/-- The casts to `short` take the low half. -/
theorem integerArg_eq (r : Resolved) (value : BitVec 32) :
    integerArg r value = integerValue r.qualifier r.flags.sign value := by
  unfold integerArg integerValue
  split
  · split
    · apply BitVec.eq_of_toInt_eq
      have hhalf : value.toInt.bmod (2 ^ 16) = (value.truncate 16).toInt := by
        rw [BitVec.toInt_setWidth, BitVec.toInt_eq_toNat_bmod]
        exact Int.bmod_bmod_of_dvd (by decide)
      have hlow := (value.truncate 16).le_toInt
      have hhigh := (value.truncate 16).toInt_lt
      rw [BitVec.toInt_signExtend_of_le (by decide), BitVec.toInt_ofInt, hhalf,
        Int.bmod_eq_of_le (by omega) (by omega)]
    · apply BitVec.eq_of_toNat_eq
      simp
  · rfl

theorem hexByte_eq : ∀ (large : Bool) (b : Byte),
    hexByte (if large then upperDigits else lowDigits) b = byteText 16 2 large b := by
  decide +kernel

theorem decimalByte_eq : ∀ b : Byte, decimalByte b = byteText 10 (-1) false b := by
  decide +kernel

theorem address_written {qualifier : Option Byte} {flags : FormatFlags} {addr s : List Byte}
    {width : Int} (hlow : -1 ≤ width) (hhigh : width < 2 ^ 31)
    (htext : addressText qualifier flags.large addr = some s) :
    (if qualifier = some (ascii 'l') then eaddr addr width flags else iaddr addr width flags) =
      some (justify width flags.left s) := by
  rw [← padded_eq s flags.left hlow hhigh]
  unfold addressText at htext
  split at htext
  next hlong =>
    split at htext
    · cases htext
      have hbytes : hexByte (if flags.large then upperDigits else lowDigits) =
          byteText 16 2 flags.large := funext (hexByte_eq flags.large)
      rw [if_pos hlong, eaddr, if_neg (by omega), hbytes]
      rfl
    · cases htext
  next hshort =>
    split at htext
    · cases htext
      rw [if_neg hshort, iaddr, if_neg (by omega), funext decimalByte_eq]
      rfl
    · cases htext

/-- `%p` in the field that is chosen for it. -/
theorem pointer_written {r : Resolved} {address : BitVec 32} (hwidth : -1 ≤ r.width)
    (hwidthFits : r.width < 2 ^ 31) (hprecision : -1 ≤ r.precision)
    (hprecisionFits : r.precision < 2 ^ 31) (hfits : (r.pointer address).Fits) :
    ∃ width flags, (if r.width = -1 then ((8 : Int), { r.flags with zeropad := true })
        else (r.width, r.flags)) = (width, flags) ∧
      number address 16 width r.precision flags = some (r.pointer address).text := by
  have hbase : 2 ≤ 16 ∧ 16 ≤ 36 := by decide
  have height : (-1 : Int) ≤ 8 ∧ (8 : Int) < 2 ^ 31 := by decide
  unfold Resolved.pointer at hfits ⊢
  by_cases hnone : r.width = -1
  · rw [if_pos hnone] at hfits
    rw [if_pos hnone, if_pos hnone]
    exact ⟨_, _, rfl, number_writes address _ hbase height ⟨hprecision, hprecisionFits⟩ hfits⟩
  · rw [if_neg hnone] at hfits
    rw [if_neg hnone, if_neg hnone]
    exact ⟨_, _, rfl, number_writes address _ hbase ⟨hwidth, hwidthFits⟩
      ⟨hprecision, hprecisionFits⟩ hfits⟩

theorem vaArg_of_nextArg {kind : Arg δ → Option α} {args args' : List (Arg δ)} {a : α}
    (h : nextArg kind args = some (a, args')) : vaArg kind args = .ok (a, args') := by
  cases args with
  | nil => cases h
  | cons arg args =>
    obtain ⟨value, hvalue, heq⟩ := Option.map_eq_some_iff.mp h
    cases heq
    rw [vaArg, hvalue]

/-- A conversion that takes an argument writes what it renders. -/
theorem convertArg_spec (flt : FloatRenderer δ) {code r : Resolved} {st st₁ : Printed δ}
    (hcode : code.Codes r) (hfits : r.fits st.args (some c) = true)
    (hother : conversionOf c ≠ .other) (hrender : render flt r st (some c) = some st₁) :
    convertArg flt code c st = some (.ok st₁) := by
  obtain ⟨hsizes, hfield⟩ := Bool.and_eq_true_iff.mp hfits
  obtain ⟨hwidthFits, hprecisionFits⟩ := Bool.and_eq_true_iff.mp hsizes
  obtain ⟨flags, width, precision, qualifier⟩ := code
  obtain ⟨rfl, rfl, ⟨hlowWidth, hwidth⟩, ⟨hlowPrecision, hprecision⟩⟩ := hcode
  dsimp only at hwidth hprecision
  unfold render at hrender
  cases hconversion : conversionOf c <;>
    simp only [hconversion, Conversion.usesWidth, Conversion.usesPrecision, Bool.not_true,
      Bool.false_or, decide_eq_true_eq] at hwidthFits hprecisionFits hrender hfield
  case other => exact absurd hconversion hother
  all_goals
    obtain ⟨⟨value, args⟩, harg, hemit⟩ := Option.bind_eq_some_iff.mp hrender
    have hva := vaArg_of_nextArg harg
    clear hrender
  case char =>
    obtain rfl := hwidth hwidthFits
    cases hemit
    rw [← char_justified r.flags.left _ hlowWidth hwidthFits]
    simp only [convertArg, hconversion, hva, ok_bind]
  case string =>
    obtain rfl := hwidth hwidthFits
    obtain rfl := hprecision hprecisionFits
    obtain ⟨cut, hcut, hemit⟩ := Option.bind_eq_some_iff.mp hemit
    cases hemit
    obtain ⟨len, hlen, htake⟩ := cutString_spec hlowPrecision hprecisionFits hcut
    rw [← padded_eq cut r.flags.left hlowWidth hwidthFits, ← htake]
    simp only [convertArg, hconversion, hva, ok_bind, hlen, ofOption]
  case pointer =>
    obtain rfl := hwidth hwidthFits
    obtain rfl := hprecision hprecisionFits
    cases hemit
    rw [Resolved.field?, harg] at hfield
    obtain ⟨width, flags, hchosen, hnumber⟩ := pointer_written hlowWidth hwidthFits hlowPrecision
      hprecisionFits (of_decide_eq_true hfield)
    simp only [convertArg, hconversion, hva, ok_bind, hchosen, hnumber, ofOption]
  case count =>
    cases hemit
    simp only [convertArg, hconversion, hva, ok_bind]
  case address large =>
    obtain rfl := hwidth hwidthFits
    obtain ⟨s, htext, hemit⟩ := Option.bind_eq_some_iff.mp hemit
    cases hemit
    have hlarge : (if large then { r.flags with large := true } else r.flags) =
        { r.flags with large := r.flags.large || large } := by
      cases large
      · rw [Bool.or_false]
        rfl
      · rw [Bool.or_true]
        rfl
    have hwritten := @address_written r.qualifier { r.flags with large := r.flags.large || large }
      value s r.width hlowWidth hwidthFits htext
    simp only [convertArg, hconversion, hva, ok_bind, hlarge, hwritten, ofOption]
  case integer base sign large =>
    obtain rfl := hwidth hwidthFits
    obtain rfl := hprecision hprecisionFits
    cases hemit
    rw [Resolved.field?, harg] at hfield
    have hfieldFits : (r.integer base sign large value).Fits := of_decide_eq_true hfield
    have hnumber := number_writes _ _ (conversionOf_base hconversion) ⟨hlowWidth, hwidthFits⟩
      ⟨hlowPrecision, hprecisionFits⟩ hfieldFits
    dsimp only [Resolved.integer] at hnumber
    simp only [convertArg, hconversion, hva, ok_bind, integerArg_eq, hnumber, ofOption]
    rfl
  case float =>
    obtain rfl := hwidth hwidthFits
    obtain rfl := hprecision hprecisionFits
    cases hemit
    simp only [convertArg, hconversion, hva, ok_bind]

theorem convertArg_other (flt : FloatRenderer δ) (code : Resolved) (st : Printed δ)
    (hother : conversionOf c = .other) : convertArg flt code c st = none := by
  simp only [convertArg, hother]

@[simp] theorem Printed.emit_args (st : Printed δ) (args : List (Arg δ)) (s : List Byte) :
    (st.emit args s).args = args := rfl

theorem Printed.emit_emit (st : Printed δ) (args args' : List (Arg δ)) (s s' : List Byte) :
    (st.emit args s).emit args' s' = st.emit args' (s ++ s') := by
  simp [Printed.emit]

/-- The `switch`. At the terminator it steps back, so that the `fmt++` of the loop
leads to the terminator again. -/
theorem convert_spec (flt : FloatRenderer δ) {code r : Resolved} {st st₁ : Printed δ}
    (h : fmt.Rest i rest) (hi : 0 < i) (hcode : code.Codes r)
    (hfits : r.fits st.args rest.head? = true)
    (hrender : render flt r st rest.head? = some st₁) :
    ∃ j, convert flt fmt i code st = .ok (j, st₁) ∧ fmt.Rest (j + 1) rest.tail := by
  cases rest with
  | nil =>
    cases hrender
    refine ⟨i - 1, ?_, by rwa [Nat.sub_add_cancel hi]⟩
    have hother : conversionOf 0#8 = .other := by decide
    have hpercent : ¬ 0#8 = ascii '%' := by decide
    simp [convert, h.at_nil, convertArg_other flt code st hother, hpercent]
  | cons c rest =>
    refine ⟨i, ?_, h.tail⟩
    by_cases hother : conversionOf c = .other
    · simp only [List.head?_cons, render, hother] at hrender
      cases hrender
      by_cases hpercent : c = ascii '%'
      · subst hpercent
        simp [convert, h.at_cons, convertArg_other flt code st hother, h.ne_zero]
      · simp [convert, h.at_cons, convertArg_other flt code st hother, h.ne_zero, hpercent,
          Printed.emit_emit]
    · have harg := convertArg_spec flt hcode hfits hother hrender
      simp only [convert, h.at_cons, harg, ok_bind]

/-- What the code has read when it gets to the conversion. -/
theorem directiveAt_reads (flt : FloatRenderer δ) {r : Resolved} {st : Printed δ}
    {args : List (Arg δ)} (h : fmt.Rest i (ascii '%' :: rest))
    (hresolve : (parseDirective rest).1.resolve st.args = some (r, args)) :
    ∃ j code rest', directiveAt flt fmt i st = convert flt fmt j code { st with args := args } ∧
      code.Codes r ∧ 0 < j ∧ fmt.Rest j rest' ∧
      rest'.head? = (parseDirective rest).1.conversion ∧ rest'.tail = (parseDirective rest).2 := by
  unfold parseDirective at hresolve ⊢
  unfold Directive.resolve at hresolve
  dsimp only at hresolve ⊢
  obtain ⟨⟨width, flags, args₁⟩, hwidth, hresolve⟩ := Option.bind_eq_some_iff.mp hresolve
  obtain ⟨⟨precision, args₂⟩, hprecision, hresolve⟩ := Option.bind_eq_some_iff.mp hresolve
  cases hresolve
  obtain ⟨i₁, hflags, hrest, hlt₁⟩ := flagLoop_spec {} h.tail h.tail.length_lt_turns
  obtain ⟨i₂, codeWidth, hgetWidth, hkeepsWidth, hrest, hle₂⟩ := getWidth_spec hrest hwidth
  obtain ⟨i₃, codePrecision, hgetPrecision, hkeepsPrecision, hrest, hle₃⟩ :=
    getPrecision_spec hrest hprecision
  obtain ⟨i₄, hgetQualifier, hrest, hle₄⟩ := getQualifier_spec hrest
  refine ⟨i₄, ⟨flags, codeWidth, codePrecision, _⟩, _, ?_,
    ⟨rfl, rfl, hkeepsWidth, hkeepsPrecision⟩, by omega, hrest, rfl, rfl⟩
  unfold directiveAt
  simp only [hflags, ok_bind, setFlags, hgetWidth, hgetPrecision, hgetQualifier]

/-- A whole directive. -/
theorem directiveAt_spec (flt : FloatRenderer δ) {r : Resolved} {st st₁ : Printed δ}
    {args : List (Arg δ)} (h : fmt.Rest i (ascii '%' :: rest))
    (hresolve : (parseDirective rest).1.resolve st.args = some (r, args))
    (hfits : r.fits args (parseDirective rest).1.conversion = true)
    (hrender : render flt r { st with args := args } (parseDirective rest).1.conversion =
      some st₁) :
    ∃ j, directiveAt flt fmt i st = .ok (j, st₁) ∧ fmt.Rest (j + 1) (parseDirective rest).2 := by
  obtain ⟨j, code, rest', hreads, hcode, hj, hrest, hhead, htail⟩ :=
    directiveAt_reads flt h hresolve
  rw [← hhead] at hfits hrender
  rw [← htail, hreads]
  exact convert_spec flt hrest hj hcode hfits hrender

theorem vsprintfLoop_spec (flt : FloatRenderer δ) {items : List Item} {st st' : Printed δ}
    (hderives : Derives items rest)
    (hrenders : renderItems flt Resolved.fits items st = some st')
    (h : fmt.Rest i rest) (hturns : rest.length < turns) :
    vsprintfLoop flt fmt turns i st = .ok st' := by
  induction hderives generalizing i st turns with
  | nil =>
    obtain ⟨turns, rfl⟩ := Nat.exists_eq_add_of_lt hturns
    cases hrenders
    simp [vsprintfLoop, h.at_nil]
  | @literal c items rest hc _ ih =>
    obtain ⟨turns, rfl⟩ := Nat.exists_eq_add_of_lt (Nat.zero_lt_of_lt hturns)
    rw [Nat.zero_add] at hturns ⊢
    have hnext := ih hrenders h.tail (Nat.lt_of_succ_lt_succ hturns)
    simp [vsprintfLoop, h.at_cons, h.ne_zero, hc, hnext]
  | @directive items rest _ ih =>
    obtain ⟨turns, rfl⟩ := Nat.exists_eq_add_of_lt (Nat.zero_lt_of_lt hturns)
    rw [Nat.zero_add] at hturns ⊢
    have hshort : (parseDirective rest).2.length ≤ rest.length := by
      have hlength := congrArg List.length (parseDirective_text rest)
      rw [List.length_append] at hlength
      omega
    obtain ⟨r, args, st₁, hresolve, hfits, hrender, hrest⟩ := renderItems_directive hrenders
    obtain ⟨j, hdirective, hj⟩ := directiveAt_spec flt h hresolve hfits hrender
    have hnext := ih hrest hj (lt_of_le_of_lt hshort (Nat.lt_of_succ_lt_succ hturns))
    simp [vsprintfLoop, h.at_cons, h.ne_zero, hdirective, hnext]

/-- Every format is a sequence of items that spell it, and `vsprintf` writes what
they render, in their order and with a NUL behind it. The conversions are given
widths and precisions that an `int` and the counter of `number` can hold. -/
theorem vsprintf_renders_items (flt : FloatRenderer δ) (fmt : CString) :
    (∃ items, Derives items fmt.bytes) ∧
      ∀ items, Derives items fmt.bytes → items.flatMap Item.text = fmt.bytes ∧
        ∀ args st, renderItems flt Resolved.fits items ⟨[], args, []⟩ = some st →
          vsprintf flt fmt args = .ok (st.out ++ [0], st.stores, st.out.length) := by
  refine ⟨exists_derives fmt.bytes, fun items hitems => ⟨hitems.text, fun args st hrenders => ?_⟩⟩
  have hloop := vsprintfLoop_spec flt hitems hrenders fmt.rest_zero (Nat.lt_succ_self _)
  unfold vsprintf
  rw [show fmt.turns = fmt.bytes.length + 1 from rfl, hloop]
  rfl

/-- A string, a literal, three numbers and two addresses, the count so far, `%%` with a
width, an unknown conversion and a directive that the end of the format cuts off. -/
def mixedFormat : CString where
  bytes := text "%-*.2s|%+.3hd %#X%6o%p %la %a%n%5%%q%"
  noNul := by decide

def mixedItems : List Item :=
  [.directive ⟨text "-", .star, some (.digits (text "2")), none, some (ascii 's')⟩,
    .literal (ascii '|'),
    .directive ⟨text "+", .absent, some (.digits (text "3")), some (ascii 'h'), some (ascii 'd')⟩,
    .literal (ascii ' '),
    .directive ⟨text "#", .absent, none, none, some (ascii 'X')⟩,
    .directive ⟨[], .digits (text "6"), none, none, some (ascii 'o')⟩,
    .directive ⟨[], .absent, none, none, some (ascii 'p')⟩,
    .literal (ascii ' '),
    .directive ⟨[], .absent, none, some (ascii 'l'), some (ascii 'a')⟩,
    .literal (ascii ' '),
    .directive ⟨[], .absent, none, none, some (ascii 'a')⟩,
    .directive ⟨[], .absent, none, none, some (ascii 'n')⟩,
    .directive ⟨[], .digits (text "5"), none, none, some (ascii '%')⟩,
    .directive ⟨[], .absent, none, none, some (ascii 'q')⟩,
    .directive ⟨[], .absent, none, none, none⟩]

/-- The first number is -5 as a `short`. -/
def mixedArgs : List (Arg Unit) :=
  [.int 4, .string (some (text "abc" ++ [0])), .int 65531, .int 255, .int 8, .pointer 0x2000a0f0,
    .address [0, 1, 0x2a, 0x3b, 0x4c, 0xfd], .address [192, 168, 0, 7], .pointer 0x20000010]

/-- No format without a floating conversion calls it. -/
def noFloat : FloatRenderer Unit := fun _ _ _ _ _ => []

theorem mixedFormat_written :
    vsprintf noFloat mixedFormat mixedArgs =
      .ok (text "ab  |-005 0xFF    102000a0f0 00:01:2a:3b:4c:fd 192.168.0.7%%q%" ++ [0],
        [(0x20000010, 58)], 62) := by
  have hitems : Derives mixedItems mixedFormat.bytes := derives_of_derivesItems (by decide +kernel)
  have hfacts : (renderItems noFloat Resolved.fits mixedItems ⟨[], mixedArgs, []⟩).map
        (fun st => (st.out ++ [0], st.stores, st.out.length)) =
      some (text "ab  |-005 0xFF    102000a0f0 00:01:2a:3b:4c:fd 192.168.0.7%%q%" ++ [0],
        [(0x20000010, 58)], 62) := by decide +kernel
  obtain ⟨st, hst, hout⟩ := Option.map_eq_some_iff.mp hfacts
  rw [← hout]
  exact ((vsprintf_renders_items noFloat mixedFormat).2 mixedItems hitems).2 _ st hst

/-- A character with a width of `2 ^ 32 + 1`. -/
def wideFormat : CString where
  bytes := text "%4294967297c"
  noNul := by decide

def wideItem : Item := .directive ⟨[], .digits (text "4294967297"), none, none, some (ascii 'c')⟩

theorem wideItem_renders :
    renderItems noFloat (fun _ _ _ => true) [wideItem] ⟨[], [.int 65], []⟩ =
      some ⟨justify (2 ^ 32 + 1) false [65], [], []⟩ := by
  have hresolve : Directive.resolve ⟨[], .digits (text "4294967297"), none, none, some (ascii 'c')⟩
      ([.int 65] : List (Arg Unit)) = some (⟨{}, 2 ^ 32 + 1, -1, none⟩, [.int 65]) := by
    decide +kernel
  have hchar : conversionOf (ascii 'c') = .char := by decide
  have hbyte : BitVec.truncate 8 (65 : BitVec 32) = 65 := by decide
  simp only [renderItems, wideItem, hresolve, Option.bind_eq_bind, Option.bind_some, if_true,
    render, hchar, nextArg, Arg.int?, Option.map_some, hbyte, Printed.emit, List.nil_append]

/-- `skip_atoi` wraps around: the width is 1, and the character is written alone. -/
theorem wideFormat_not_padded :
    ∃ items st, Derives items wideFormat.bytes ∧
      renderItems noFloat (fun _ _ _ => true) items ⟨[], [.int 65], []⟩ = some st ∧
      vsprintf noFloat wideFormat [.int 65] = .ok ([65, 0], [], 1) ∧
      vsprintf noFloat wideFormat [.int 65] ≠ .ok (st.out ++ [0], st.stores, st.out.length) := by
  have hwritten : vsprintf noFloat wideFormat [.int 65] = .ok ([65, 0], [], 1) := by
    decide +kernel
  refine ⟨[wideItem], _, derives_of_derivesItems (by decide +kernel), wideItem_renders,
    hwritten, ?_⟩
  rw [hwritten]
  intro heq
  have hlength : 1 = (justify (2 ^ 32 + 1) false [65]).length :=
    congrArg (fun result => result.2.2) (Except.ok.inj heq)
  rw [length_justify] at hlength
  omega

/-! A number with the largest precision of an `int`. -/

def longFormat : CString where
  bytes := text "%.2147483647u"
  noNul := by decide

def longDirective : Directive :=
  ⟨[], .absent, some (.digits (text "2147483647")), none, some (ascii 'u')⟩

theorem longDirective_resolves : longDirective.resolve ([.int 0] : List (Arg Unit)) =
    some (⟨{}, -1, 2 ^ 31 - 1, none⟩, [.int 0]) := by
  decide +kernel

theorem unsigned_integer (precision : Int) (value : BitVec 32) :
    Resolved.integer ⟨{}, -1, precision, none⟩ 10 false false value =
      ⟨value, 10, -1, precision, {}⟩ := by
  have hvalue : integerValue none false value = value := if_neg (by decide)
  simp only [Resolved.integer, Bool.or_false, hvalue]

theorem unsigned_renders {d : Directive} {precision : Int} {value : BitVec 32}
    (hresolve : d.resolve ([.int value] : List (Arg Unit)) =
      some (⟨{}, -1, precision, none⟩, [.int value]))
    (hconversion : d.conversion = some (ascii 'u')) :
    renderItems noFloat (fun _ _ _ => true) [.directive d] ⟨[], [.int value], []⟩ =
      some ⟨numberText value 10 (-1) precision {}, [], []⟩ := by
  have hunsigned : conversionOf (ascii 'u') = .integer 10 false false := by decide
  simp only [renderItems, hresolve, hconversion, Option.bind_eq_bind, Option.bind_some, if_true,
    render, hunsigned, nextArg, Arg.int?, Option.map_some, unsigned_integer, NumberField.text,
    Printed.emit, List.nil_append]

/-- A format that is one such directive writes what `number` prints. -/
theorem unsigned_written {precision : Int} {value : BitVec 32} {bytes : List Byte}
    (hfmt : fmt.Rest 0 (ascii '%' :: rest)) (hlast : (parseDirective rest).2 = [])
    (hresolve : (parseDirective rest).1.resolve ([.int value] : List (Arg Unit)) =
      some (⟨{}, -1, precision, none⟩, [.int value]))
    (hconversion : (parseDirective rest).1.conversion = some (ascii 'u'))
    (hprecision : precision < 2 ^ 31) (hnumber : number value 10 (-1) precision {} = some bytes) :
    vsprintf noFloat fmt [.int value] = .ok (bytes ++ [0], [], bytes.length) := by
  obtain ⟨j, code, rest', hreads, hcode, -, hrest, hhead, htail⟩ :=
    @directiveAt_reads _ _ _ _ noFloat _ ⟨[], [.int value], []⟩ _ hfmt hresolve
  rw [hconversion] at hhead
  rw [hlast] at htail
  obtain ⟨c, rest'', rfl⟩ : ∃ c rest'', rest' = c :: rest'' := by
    cases rest' with
    | nil => cases hhead
    | cons c rest'' => exact ⟨c, rest'', rfl⟩
  cases hhead
  cases htail
  have hwidth : (-1 : Int) < 2 ^ 31 := by decide
  obtain rfl := hcode.eq hwidth hprecision
  have hunsigned : conversionOf (ascii 'u') = .integer 10 false false := by decide
  have hvalue : integerValue none false value = value := if_neg (by decide)
  have hconvert : convert noFloat fmt j ⟨{}, -1, precision, none⟩ ⟨[], [.int value], []⟩ =
      .ok (j, ⟨bytes, [], []⟩) := by
    simp only [convert, hrest.at_cons, convertArg, hunsigned, vaArg, Arg.int?, ok_bind,
      integerArg_eq, Bool.or_false, hvalue, hnumber, ofOption, Printed.emit, List.nil_append]
  rw [hconvert] at hreads
  obtain ⟨before, hbytes, hbefore⟩ := hfmt
  cases List.length_eq_zero_iff.mp hbefore
  have hturns : fmt.turns = rest.length + 1 + 1 := by
    unfold CString.turns
    rw [hbytes]
    rfl
  have hfmt : fmt.Rest 0 (ascii '%' :: rest) := ⟨[], hbytes, rfl⟩
  have hloop : vsprintfLoop noFloat fmt fmt.turns 0 ⟨[], [.int value], []⟩ =
      .ok ⟨bytes, [], []⟩ := by
    simp [hturns, vsprintfLoop, hfmt.at_cons, hfmt.ne_zero, hreads, hrest.tail.at_nil]
  simp only [vsprintf, hloop, ok_bind]

/-- The counter of `number` wraps around: the digits come with more spaces than asked for. -/
theorem longFormat_not_exact :
    ∃ items st, Derives items longFormat.bytes ∧
      renderItems noFloat (fun _ _ _ => true) items ⟨[], [.int 0], []⟩ = some st ∧
      vsprintf noFloat longFormat [.int 0] ≠ .ok (st.out ++ [0], st.stores, st.out.length) := by
  have hparse : parseDirective (text ".2147483647u") = (longDirective, []) := by decide +kernel
  obtain ⟨padding, -, hnumber⟩ :=
    @number_eq 10 0 {} (-1) (2 ^ 31 - 1) (by decide) (by decide) (by decide)
  generalize padding.1 ++ _ ++ _ ++ _ ++ _ ++ _ ++ _ = bytes at hnumber
  have hrest : longFormat.Rest 0 (ascii '%' :: text ".2147483647u") := longFormat.rest_zero
  have hwritten : vsprintf noFloat longFormat [.int 0] = .ok (bytes ++ [0], [], bytes.length) := by
    refine unsigned_written hrest ?_ ?_ ?_ (by decide) hnumber
    · rw [hparse]
    · rw [hparse]
      exact longDirective_resolves
    · rw [hparse]
      rfl
  refine ⟨[.directive longDirective], _, derives_of_derivesItems (by decide +kernel),
    unsigned_renders longDirective_resolves rfl, ?_⟩
  rw [hwritten]
  intro heq
  have hout := congrArg (fun result => result.1) (Except.ok.inj heq)
  have hbytes := List.append_cancel_right hout
  rw [hbytes] at hnumber
  exact largest_precision_wraps
    ⟨_, hnumber, numberText_prints 0 {} (by decide) (by decide)⟩

/-- A width that an `int` cannot hold, and a precision that `number` counts below the
least `int`. -/
theorem wide_and_long_not_rendered :
    (∃ items st, Derives items wideFormat.bytes ∧
      renderItems noFloat (fun _ _ _ => true) items ⟨[], [.int 65], []⟩ = some st ∧
      vsprintf noFloat wideFormat [.int 65] = .ok ([65, 0], [], 1) ∧
      vsprintf noFloat wideFormat [.int 65] ≠ .ok (st.out ++ [0], st.stores, st.out.length)) ∧
    ∃ items st, Derives items longFormat.bytes ∧
      renderItems noFloat (fun _ _ _ => true) items ⟨[], [.int 0], []⟩ = some st ∧
      vsprintf noFloat longFormat [.int 0] ≠ .ok (st.out ++ [0], st.stores, st.out.length) :=
  ⟨wideFormat_not_padded, longFormat_not_exact⟩

end PosixRtos.Libc
