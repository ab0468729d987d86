import PosixRtos.Libc.Format

/-! `atoi` and `itoa` of `string.c`. The arithmetic of an `int` wraps around. -/
namespace PosixRtos.Libc

open PosixRtos.Library.ByteMemory

/-- `is_space`: the subtraction is compared as an unsigned number. -/
def isSpace (c : Byte) : Bool := ((c.toNat : Int) - 9) % 2 ^ 32 < 5 ∨ ascii ' ' = c

/-- The loop over the digits; `none` is a read behind the array. -/
def atoiLoop : List Byte → Int → Option Int
  | [], _ => none
  | c :: p, n => if isDigit c then atoiLoop p (toInt (10 * n + (c.toNat - 48))) else some n

def atoi (str : List Byte) : Option Int := do
  let p := str.dropWhile isSpace
  let c ← p.head?
  let sign := if ascii '-' = c then -1 else 1
  let p := if ascii '+' = c ∨ ascii '-' = c then p.tail else p
  let n ← atoiLoop p 0
  some (toInt (sign * n))

/-- `while (number / i) i *= 10`; `none` is a division by zero. No more turns are
needed than given: `10 ^ 32` is a multiple of `2 ^ 32`. -/
def itoaDivisor (number : Int) : Nat → Int → Option Int
  | 0, _ => none
  | turns + 1, i =>
      if i = 0 then none
      else if toInt (number.tdiv i) ≠ 0 then itoaDivisor number turns (toInt (i * 10))
      else some i

/-- `while (i /= 10)` with the characters that it writes; `none` when it does not
end within `turns`. -/
def itoaDigits : Nat → Int → Int → Option (List Byte)
  | 0, _, _ => none
  | turns + 1, number, i =>
      let i := i.tdiv 10
      if i = 0 then some []
      else do
        let rest ← itoaDigits turns (number.tmod i) i
        some (BitVec.ofInt 8 (toInt (number.tdiv i) + 48) :: rest)

/-- `itoa` with a buffer that is not NULL: what is written to it. -/
def itoa (number : Int) : Option (List Byte) := do
  let i ← itoaDivisor number 33 1
  let sign := if number < 0 then [ascii '-'] else []
  let number := if number < 0 then toInt (-number) else number
  let i := if 0 = number then 10 else i
  let digits ← itoaDigits 11 number i
  some (sign ++ digits ++ [0])

/-- The text of `n`: digits after an optional sign, without superfluous zeros, that
`atoi` reads back. -/
def ItoaUndone (n : BitVec 32) : Prop :=
  ∃ sign digits, itoa n.toInt = some (sign ++ digits ++ [0]) ∧
    (sign = [] ∨ sign = [ascii '-']) ∧ (∀ c ∈ digits, isDigit c = true) ∧ digits ≠ [] ∧
    (digits.head? = some (ascii '0') → digits = [ascii '0']) ∧
    atoi (sign ++ digits ++ [0]) = some n.toInt

variable {i number value : Int} {turns k d m : Nat} {p digits : List Byte}

/-! Numbers of at most nine digits. The divisor ends at the power of ten above the
number. -/

theorem itoaDivisor_eq (hm : number.natAbs < 10 ^ 9) (hk : k ≤ 9) (hturns : 9 - k < turns) :
    ∃ d, itoaDivisor number turns (10 ^ k) = some (10 ^ d) ∧ d ≤ 9 ∧ number.natAbs < 10 ^ d ∧
      (d = k ∨ 10 ^ (d - 1) ≤ number.natAbs) := by
  induction turns generalizing k with
  | zero => omega
  | succ turns ih =>
    have hpos : (0 : Int) < 10 ^ k := by positivity
    have hquotient : number.tdiv (10 ^ k) = 0 ↔ number.natAbs < 10 ^ k := by
      have habs : (number.tdiv (10 ^ k)).natAbs = number.natAbs / 10 ^ k := by
        rw [Int.natAbs_tdiv, Int.natAbs_pow]
        rfl
      rw [← Int.natAbs_eq_zero, habs, Nat.div_eq_zero_iff]
      simp
    have hfits : toInt (number.tdiv (10 ^ k)) = number.tdiv (10 ^ k) := by
      have hle := Int.natAbs_tdiv_le_natAbs number (10 ^ k)
      exact toInt_of_fits (by omega) (by omega)
    rw [itoaDivisor, if_neg hpos.ne', hfits]
    by_cases hlt : number.natAbs < 10 ^ k
    · rw [if_neg (not_not_intro (hquotient.mpr hlt))]
      exact ⟨k, rfl, hk, hlt, .inl rfl⟩
    · have hk' : k < 9 := by
        by_contra hge
        obtain rfl : k = 9 := by omega
        exact hlt hm
      have hnext : toInt (10 ^ k * 10) = 10 ^ (k + 1) := by
        have hpow : (10 : Int) ^ (k + 1) ≤ 10 ^ 9 := by
          gcongr
          · omega
          · exact hk'
        have hpos' : (0 : Int) < 10 ^ (k + 1) := by positivity
        rw [← pow_succ]
        exact toInt_of_fits (by omega) (by omega)
      rw [if_pos (mt hquotient.mp hlt), hnext]
      obtain ⟨d, hd, hd9, hmd, hleast⟩ := ih hk' (by omega)
      refine ⟨d, hd, hd9, hmd, .inr ?_⟩
      rcases hleast with rfl | hle
      · rw [Nat.succ_sub_one]
        omega
      · exact hle

/-- The character of a digit. -/
theorem digit_char (hq : k < 10) :
    (BitVec.ofInt 8 ((k : Int) + 48)).toNat = k + 48 ∧
      isDigit (BitVec.ofInt 8 ((k : Int) + 48)) = true := by
  have hall : ∀ q : Fin 10, (BitVec.ofInt 8 ((q.val : Int) + 48)).toNat = q.val + 48 ∧
      isDigit (BitVec.ofInt 8 ((q.val : Int) + 48)) = true := by decide
  exact hall ⟨k, hq⟩

/-- The digits of a number below `10 ^ d`, with zeros in front; `atoi` that has come
to them goes on with them. -/
theorem itoaDigits_eq (hm : m < 10 ^ d) (hd : d ≤ 9) (hturns : d < turns) :
    ∃ digits, itoaDigits turns m (10 ^ d) = some digits ∧ digits.length = d ∧
      (∀ c ∈ digits, isDigit c = true) ∧
      (digits.head? = some (ascii '0') → m < 10 ^ (d - 1)) ∧
      ∀ n : Nat, n * 10 ^ d + m < 2 ^ 31 →
        atoiLoop (digits ++ [0]) n = some ((n * 10 ^ d + m : Nat) : Int) := by
  induction d generalizing m turns with
  | zero =>
    obtain ⟨turns, rfl⟩ := Nat.exists_eq_add_of_lt hturns
    obtain rfl : m = 0 := by omega
    refine ⟨[], rfl, rfl, by simp, by simp, fun n _ => ?_⟩
    have hstop : isDigit 0#8 = false := by decide
    simp [atoiLoop, hstop]
  | succ d ih =>
    obtain ⟨turns, rfl⟩ := Nat.exists_eq_add_of_lt (Nat.zero_lt_of_lt hturns)
    rw [Nat.zero_add] at hturns ⊢
    have hpos : 0 < 10 ^ d := by positivity
    have hdivisor : ((10 : Int) ^ (d + 1)).tdiv 10 = (10 ^ d : Nat) := by
      rw [pow_succ, Int.mul_tdiv_cancel _ (by decide)]
      norm_cast
    have hq : m / 10 ^ d < 10 := by
      rw [Nat.div_lt_iff_lt_mul hpos, Nat.mul_comm, ← pow_succ]
      exact hm
    obtain ⟨hchar, hdigit⟩ := digit_char hq
    have hfits : toInt ((m / 10 ^ d : Nat) : Int) = (m / 10 ^ d : Nat) :=
      toInt_of_fits (by omega) (by omega)
    obtain ⟨digits, hdigits, hlength, hall, -, hatoi⟩ :=
      ih (Nat.mod_lt m hpos) (Nat.le_of_succ_le hd) (Nat.lt_of_succ_lt_succ hturns)
    refine ⟨BitVec.ofInt 8 (((m / 10 ^ d : Nat) : Int) + 48) :: digits, ?_, ?_, ?_, ?_, ?_⟩
    · have hne : ((10 ^ d : Nat) : Int) ≠ 0 := by exact_mod_cast hpos.ne'
      have hpow : ((10 ^ d : Nat) : Int) = 10 ^ d := by push_cast; rfl
      rw [itoaDigits, hdivisor, if_neg hne, ← Int.ofNat_tmod, ← Int.ofNat_tdiv, hfits, hpow,
        hdigits]
      rfl
    · rw [List.length_cons, hlength]
    · rw [List.forall_mem_cons]
      exact ⟨hdigit, hall⟩
    · intro hzero
      have hchar' : (BitVec.ofInt 8 (((m / 10 ^ d : Nat) : Int) + 48)).toNat = 48 := by
        rw [Option.some.inj hzero]
        rfl
      rw [Nat.add_sub_cancel]
      rw [hchar] at hchar'
      exact Nat.lt_of_div_eq_zero hpos (by omega)
    · intro n hn
      have hsplit := Nat.div_add_mod m (10 ^ d)
      have hvalue : (10 * n + m / 10 ^ d) * 10 ^ d + m % 10 ^ d = n * 10 ^ (d + 1) + m := by
        rw [pow_succ]
        linarith [Nat.mul_comm (10 ^ d) (m / 10 ^ d)]
      have hsmall : 10 * n + m / 10 ^ d < 2 ^ 31 := by
        have hle := Nat.le_mul_of_pos_right (10 * n + m / 10 ^ d) hpos
        omega
      have hnext : toInt (10 * (n : Int) +
          (((BitVec.ofInt 8 (((m / 10 ^ d : Nat) : Int) + 48)).toNat : Int) - 48)) =
            ((10 * n + m / 10 ^ d : Nat) : Int) := by
        rw [hchar, toInt_of_fits (by omega) (by omega)]
        push_cast
        ring
      rw [List.cons_append, atoiLoop, if_pos hdigit, hnext, hatoi _ (by omega), hvalue]

/-- A digit is none of the characters that `atoi` skips. -/
theorem digit_not_skipped {c : Byte} (hc : isDigit c = true) :
    isSpace c = false ∧ ascii '+' ≠ c ∧ ascii '-' ≠ c := by
  revert c
  decide

theorem atoi_unsigned {c : Byte} (hc : isDigit c = true) (rest : List Byte)
    (h : atoiLoop (c :: rest) 0 = some value) : atoi (c :: rest) = some (toInt value) := by
  obtain ⟨hspace, hplus, hminus⟩ := digit_not_skipped hc
  simp [atoi, hspace, hplus, hminus, h]

theorem atoi_negative (h : atoiLoop p 0 = some value) :
    atoi (ascii '-' :: p) = some (toInt (-value)) := by
  have hspace : isSpace (ascii '-') = false := by decide
  simp [atoi, hspace, h]

/-- The power of ten with which the digits start: zero has one digit. -/
theorem itoa_start {n : Int} (hn : n.natAbs < 10 ^ 9) :
    ∃ i d, itoaDivisor n 33 1 = some i ∧ (if 0 = (n.natAbs : Int) then 10 else i) = 10 ^ (d + 1) ∧
      d + 1 ≤ 9 ∧ n.natAbs < 10 ^ (d + 1) ∧ (n.natAbs < 10 ^ d → d = 0) := by
  obtain ⟨d, hdivisor, hd, hlt, hleast⟩ := itoaDivisor_eq (k := 0) hn (by decide)
    (show 9 - 0 < 33 by decide)
  rw [pow_zero] at hdivisor
  by_cases hzero : n.natAbs = 0
  · refine ⟨_, 0, hdivisor, if_pos (by omega), by decide, by omega, fun _ => rfl⟩
  · obtain ⟨d, rfl⟩ : ∃ e, d = e + 1 := by
      refine Nat.exists_eq_add_one.mpr (Nat.pos_of_ne_zero ?_)
      rintro rfl
      omega
    refine ⟨_, d, hdivisor, if_neg (by omega), hd, hlt, fun hsmall => ?_⟩
    rw [Nat.add_sub_cancel] at hleast
    omega

theorem itoa_short {n : BitVec 32} (hn : n.toInt.natAbs < 10 ^ 9) : ItoaUndone n := by
  obtain ⟨i, d, hdivisor, hstart, hd, hlt, hleast⟩ := itoa_start hn
  obtain ⟨digits, hdigits, hlength, hall, hzero, hatoi⟩ :=
    itoaDigits_eq hlt hd (show d + 1 < 11 by omega)
  have hvalue : atoiLoop (digits ++ [0]) 0 = some (n.toInt.natAbs : Int) := by
    simpa using hatoi 0 (by omega)
  have hne : digits ≠ [] := List.ne_nil_of_length_eq_add_one hlength
  have habs : (if n.toInt < 0 then toInt (-n.toInt) else n.toInt) = n.toInt.natAbs := by
    split
    · rw [toInt_of_fits (by omega) (by omega)]
      omega
    · omega
  have hitoa : itoa n.toInt =
      some ((if n.toInt < 0 then [ascii '-'] else []) ++ digits ++ [0]) := by
    simp only [itoa, hdivisor, habs, hstart, Option.bind_eq_bind, Option.bind_some]
    rw [hdigits, Option.bind_some]
  refine ⟨_, digits, hitoa, ?_, hall, hne, ?_, ?_⟩
  · split
    · exact .inr rfl
    · exact .inl rfl
  · intro hfirst
    obtain rfl : d = 0 := hleast (hzero hfirst)
    obtain ⟨c, rfl⟩ := List.length_eq_one_iff.mp hlength
    rw [List.head?_singleton] at hfirst
    rw [Option.some.inj hfirst]
  · split
    next hneg =>
      rw [List.singleton_append, List.cons_append, atoi_negative hvalue,
        toInt_of_fits (by omega) (by omega)]
      congr 1
      omega
    next hpos =>
      obtain ⟨c, rest, rfl⟩ := List.exists_cons_of_ne_nil hne
      rw [List.cons_append] at hvalue
      rw [List.nil_append, List.cons_append,
        atoi_unsigned (hall c List.mem_cons_self) _ hvalue, toInt_of_fits (by omega) (by omega)]
      congr 1
      omega

/-! Longer numbers. An `int` has ten digits, and the first division takes one off:
at most nine are written. -/

theorem itoaDivisor_fits (hi : -2 ^ 31 ≤ i ∧ i < 2 ^ 31)
    (h : itoaDivisor number turns i = some value) : -2 ^ 31 ≤ value ∧ value < 2 ^ 31 := by
  induction turns generalizing i with
  | zero => cases h
  | succ turns ih =>
    rw [itoaDivisor] at h
    split at h
    · cases h
    split at h
    · exact ih (toInt_fits _) h
    · cases h
      exact hi

theorem itoaDigits_length (hi : i.natAbs < 10 ^ (k + 1))
    (h : itoaDigits turns number i = some digits) : digits.length ≤ k := by
  induction turns generalizing i number digits k with
  | zero => cases h
  | succ turns ih =>
    rw [itoaDigits] at h
    split at h
    · cases h
      exact Nat.zero_le k
    next hne =>
    obtain ⟨rest, hrest, hdigits⟩ := Option.bind_eq_some_iff.mp h
    cases hdigits
    have habs : (i.tdiv 10).natAbs = i.natAbs / 10 := by
      rw [Int.natAbs_tdiv]
      rfl
    have hpos := Int.natAbs_pos.mpr hne
    have hlt : i.natAbs / 10 < 10 ^ k := by
      rw [Nat.div_lt_iff_lt_mul (by decide), ← pow_succ]
      exact hi
    cases k with
    | zero => omega
    | succ k => exact Nat.succ_le_succ (ih (habs ▸ hlt) hrest)

/-- `atoi` stays below the power of ten that the digits in front of it allow. -/
theorem atoiLoop_lt {n : Int} (hn : 0 ≤ n ∧ n < 10 ^ k) (hk : k + p.countP isDigit ≤ 9)
    (h : atoiLoop p n = some value) : 0 ≤ value ∧ value < 10 ^ 9 := by
  induction p generalizing n k with
  | nil => cases h
  | cons c p ih =>
    rw [atoiLoop] at h
    split at h
    next hdigit =>
      rw [List.countP_cons_of_pos hdigit] at hk
      have hc := of_decide_eq_true hdigit
      have hlow : 48 ≤ c.toNat := BitVec.le_def.mp hc.1
      have hhigh : c.toNat ≤ 57 := BitVec.le_def.mp hc.2
      have hpow : (10 : Int) ^ (k + 1) ≤ 10 ^ 9 := by
        gcongr
        · decide
        · omega
      have hbound : 10 * n + ((c.toNat : Int) - 48) < 10 ^ (k + 1) := by
        rw [pow_succ]
        omega
      rw [toInt_of_fits (by omega) (by omega)] at h
      exact ih ⟨by omega, hbound⟩ (by omega) h
    next hstop =>
      cases h
      have hpow : (10 : Int) ^ k ≤ 10 ^ 9 := by
        gcongr
        · decide
        · omega
      exact ⟨hn.1, hn.2.trans_le hpow⟩

theorem atoi_lt (hp : p.countP isDigit ≤ 9) (h : atoi p = some value) :
    value.natAbs < 10 ^ 9 := by
  unfold atoi at h
  obtain ⟨c, -, h⟩ := Option.bind_eq_some_iff.mp h
  obtain ⟨n, hn, h⟩ := Option.bind_eq_some_iff.mp h
  cases h
  have hskip : (p.dropWhile isSpace).countP isDigit ≤ 9 :=
    (List.dropWhile_sublist isSpace).countP_le.trans hp
  have hcount : (if ascii '+' = c ∨ ascii '-' = c then (p.dropWhile isSpace).tail
      else p.dropWhile isSpace).countP isDigit ≤ 9 := by
    split
    · exact (List.tail_sublist _).countP_le.trans hskip
    · exact hskip
  obtain ⟨hlow, hhigh⟩ := atoiLoop_lt (k := 0) ⟨le_rfl, one_pos⟩ (by simpa using hcount) hn
  split
  · rw [toInt_of_fits (by omega) (by omega)]
    omega
  · rw [toInt_of_fits (by omega) (by omega)]
    omega

/-- Nine digits are all that `itoa` can write. -/
theorem itoa_digits_le (h : itoa number = some p) : p.countP isDigit ≤ 9 := by
  unfold itoa at h
  obtain ⟨i, hi, h⟩ := Option.bind_eq_some_iff.mp h
  obtain ⟨digits, hdigits, h⟩ := Option.bind_eq_some_iff.mp h
  cases h
  obtain ⟨hlow, hhigh⟩ := itoaDivisor_fits (by decide) hi
  have hlength : digits.length ≤ 9 := by
    refine itoaDigits_length ?_ hdigits
    split <;> omega
  have hsign : (if number < 0 then [ascii '-'] else []).countP isDigit = 0 := by
    split
    · decide
    · rfl
  have hnul : [(0 : Byte)].countP isDigit = 0 := by decide
  rw [List.countP_append, List.countP_append, hsign, hnul, Nat.zero_add, Nat.add_zero]
  exact List.countP_le_length.trans hlength

theorem ItoaUndone.short {n : BitVec 32} (h : ItoaUndone n) : n.toInt.natAbs < 10 ^ 9 := by
  obtain ⟨sign, digits, hitoa, -, -, -, -, hatoi⟩ := h
  exact atoi_lt (itoa_digits_le hitoa) hatoi

/-- `atoi` undoes `itoa` for the numbers of at most nine digits and for no others. -/
theorem itoa_undone_iff (n : BitVec 32) :
    ItoaUndone n ↔ -10 ^ 9 < n.toInt ∧ n.toInt < 10 ^ 9 := by
  constructor
  · intro h
    have hshort := h.short
    omega
  · intro hn
    exact itoa_short (by omega)

/-- The divisor has wrapped around to 1410065408, and `itoa` writes 709186972. -/
theorem ten_digits_are_cut : ¬ ItoaUndone 1000000000 := by
  intro h
  have hshort := h.short
  revert hshort
  decide

end PosixRtos.Libc
