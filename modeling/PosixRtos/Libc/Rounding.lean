import PosixRtos.Libc.Grammar

/-! `__ecvround` of `stdio.c`, which rounds a string of decimal digits up. The carry is
looked at behind the loop only if the pointer is still at the first digit, and then
there is none: if all digits are '9', they become '0' and the carry is lost. -/
namespace PosixRtos.Libc

open PosixRtos.Library.ByteMemory

/-- The loop of `__ecvround`; `left` characters are from `numbuf` to `p`, so that the
pointer is one before `numbuf` when there are none. -/
def ecvroundLoop (numbuf : Nat) : Nat → Memory → Nat → Memory × Nat × Nat
  | 0, mem, carry => (mem, carry, 0)
  | left + 1, mem, carry =>
      let sum := (mem (numbuf + left)).toNat + carry
      let carry := if (ascii '9').toNat < sum then 1 else 0
      let mem := Function.update mem (numbuf + left) (BitVec.ofNat 8 (sum - carry * 10))
      if carry ≠ 0 ∧ left ≠ 0 then ecvroundLoop numbuf left mem carry else (mem, carry, left)

def ecvround (mem : Memory) (numbuf lastDigit afterLast : Nat) (decpt : Int) : Memory × Int :=
  if ascii '4' < mem afterLast then
    let (mem, carry, left) := ecvroundLoop numbuf (lastDigit - numbuf + 1) mem 1
    if carry ≠ 0 ∧ left = 1 then (Function.update mem numbuf (ascii '1'), decpt + 1)
    else (mem, decpt)
  else (mem, decpt)

/-- The number `0.d0d1... * 10 ^ decpt`. -/
def pointValue (digits : List Byte) (decpt : Int) : ℚ :=
  decimal digits * 10 ^ (decpt - digits.length)

variable {mem mem' : Memory} {numbuf n : Nat} {ds : List Byte} {c : Byte}

def Digits (ds : List Byte) : Prop := ∀ c ∈ ds, isDigit c = true

theorem decimal_concat (ds : List Byte) (c : Byte) :
    decimal (ds ++ [c]) = decimal ds * 10 + (c.toNat - 48) := by
  rw [decimal, List.foldl_append]
  rfl

theorem isDigit_iff : isDigit c = true ↔ 48 ≤ c.toNat ∧ c.toNat ≤ 57 := by
  rw [isDigit, decide_eq_true_eq]
  rfl

theorem read_succ (mem : Memory) (a n : Nat) :
    read mem a (n + 1) = read mem a n ++ [mem (a + n)] := by
  unfold PosixRtos.Library.ByteMemory.read
  rw [List.range_succ, List.map_append]
  rfl

theorem read_update_end (mem : Memory) (a n : Nat) (c : Byte) :
    read (Function.update mem (a + n) c) a n = read mem a n := by
  apply read_congr
  intro x _ hx
  exact Function.update_of_ne (by omega) _ _

/-- The loop with a carry of 1: the digits and the carry behind them are one more. -/
structure Carried (numbuf n : Nat) (mem : Memory) (r : Memory × Nat × Nat) : Prop where
  digits : Digits (read r.1 numbuf n)
  value : decimal (read r.1 numbuf n) + r.2.1 * 10 ^ n = decimal (read mem numbuf n) + 1
  carry : r.2.1 = if ∀ c ∈ read mem numbuf n, c = ascii '9' then 1 else 0
  left : r.2.1 ≠ 0 → r.2.2 = 0
  outside : ∀ x, x < numbuf ∨ numbuf + n ≤ x → r.1 x = mem x

theorem ecvroundLoop_nine (hc : mem (numbuf + n) = ascii '9') :
    ecvroundLoop numbuf (n + 1) mem 1 =
      ecvroundLoop numbuf n (Function.update mem (numbuf + n) (ascii '0')) 1 := by
  have hcarry : (ascii '9').toNat < (mem (numbuf + n)).toNat + 1 := by
    rw [hc]
    exact Nat.lt_succ_self _
  have hzero : BitVec.ofNat 8 ((mem (numbuf + n)).toNat + 1 - 1 * 10) = ascii '0' := by
    rw [hc]
    rfl
  rw [ecvroundLoop]
  simp only [if_pos hcarry, hzero]
  by_cases hn : n = 0
  · subst hn
    rfl
  · rw [if_pos ⟨one_ne_zero, hn⟩]

theorem ecvroundLoop_other (hc : isDigit (mem (numbuf + n)) = true)
    (hne : mem (numbuf + n) ≠ ascii '9') :
    ecvroundLoop numbuf (n + 1) mem 1 =
      (Function.update mem (numbuf + n) (mem (numbuf + n) + 1), 0, n) := by
  have hlt : (mem (numbuf + n)).toNat < 57 := by
    refine lt_of_le_of_ne (isDigit_iff.mp hc).2 fun h => hne ?_
    exact BitVec.eq_of_toNat_eq h
  have hcarry : ¬ (ascii '9').toNat < (mem (numbuf + n)).toNat + 1 := by
    change ¬ 57 < _
    omega
  have hsum : BitVec.ofNat 8 ((mem (numbuf + n)).toNat + 1 - 0 * 10) = mem (numbuf + n) + 1 := by
    apply BitVec.eq_of_toNat_eq
    rw [BitVec.toNat_ofNat, BitVec.toNat_add]
    rfl
  rw [ecvroundLoop]
  simp only [if_neg hcarry, hsum]
  rfl

theorem ecvroundLoop_carried (hd : Digits (read mem numbuf n)) :
    Carried numbuf n mem (ecvroundLoop numbuf n mem 1) := by
  induction n generalizing mem with
  | zero => exact ⟨hd, rfl, rfl, fun _ => rfl, fun _ _ => rfl⟩
  | succ n ih =>
    have hread := read_succ mem numbuf n
    have hlast : isDigit (mem (numbuf + n)) = true := by
      apply hd
      rw [hread]
      exact List.mem_append_right _ (List.mem_singleton_self _)
    have hfront : Digits (read mem numbuf n) := by
      intro c hc
      apply hd
      rw [hread]
      exact List.mem_append_left _ hc
    by_cases hnine : mem (numbuf + n) = ascii '9'
    · rw [ecvroundLoop_nine hnine]
      set mem₁ := Function.update mem (numbuf + n) (ascii '0') with hmem₁
      have hkept : read mem₁ numbuf n = read mem numbuf n := read_update_end mem numbuf n _
      have h := ih (hkept ▸ hfront)
      generalize ecvroundLoop numbuf n mem₁ 1 = r at h
      have hzero : r.1 (numbuf + n) = ascii '0' := by
        rw [h.outside _ (.inr le_rfl)]
        exact Function.update_self _ _ _
      have hvalue := h.value
      rw [hkept] at hvalue
      refine ⟨?_, ?_, ?_, h.left, ?_⟩
      · rw [read_succ, hzero]
        intro c hc
        rcases List.mem_append.mp hc with hc | hc
        · exact h.digits c hc
        · rw [List.mem_singleton.mp hc]
          rfl
      · rw [read_succ, hread, decimal_concat, decimal_concat, hzero, hnine, pow_succ]
        change decimal _ * 10 + 0 + _ = decimal _ * 10 + 9 + 1
        linarith
      · rw [h.carry, hkept, hread]
        refine if_congr ?_ rfl rfl
        rw [List.forall_mem_append]
        refine (and_iff_left ?_).symm
        intro c hc
        rw [List.mem_singleton.mp hc, hnine]
      · intro x hx
        rw [h.outside x (by omega)]
        exact Function.update_of_ne (by omega) _ _
    · rw [ecvroundLoop_other hlast hnine]
      have hdigit := isDigit_iff.mp hlast
      have hlt : (mem (numbuf + n)).toNat ≠ 57 := fun h => hnine (BitVec.eq_of_toNat_eq h)
      have hone : (mem (numbuf + n) + 1).toNat = (mem (numbuf + n)).toNat + 1 := by
        rw [BitVec.toNat_add]
        change (_ + 1) % 256 = _
        omega
      refine ⟨?_, ?_, ?_, fun h => absurd rfl h, ?_⟩
      · dsimp only
        rw [read_succ, Function.update_self, read_update_end]
        intro c hc
        rcases List.mem_append.mp hc with hc | hc
        · exact hfront c hc
        · rw [List.mem_singleton.mp hc, isDigit_iff, hone]
          omega
      · dsimp only
        rw [read_succ, Function.update_self, read_update_end, hread, decimal_concat,
          decimal_concat, hone]
        omega
      · refine (if_neg fun hall => hnine (hall _ ?_)).symm
        rw [hread]
        exact List.mem_append_right _ (List.mem_singleton_self _)
      · intro x hx
        exact Function.update_of_ne (by omega) _ _

/-- What rounding is to do: nothing if the next digit is at most '4', and one more in the
last place otherwise; no other character is written. -/
structure RoundsExactly (mem : Memory) (numbuf lastDigit afterLast : Nat) (decpt : Int)
    (r : Memory × Int) : Prop where
  digits : Digits (read r.1 numbuf (lastDigit - numbuf + 1))
  value : pointValue (read r.1 numbuf (lastDigit - numbuf + 1)) r.2 =
    pointValue (read mem numbuf (lastDigit - numbuf + 1)) decpt +
      if mem afterLast ≤ ascii '4' then 0
      else 10 ^ (decpt - ((lastDigit - numbuf + 1 : Nat) : Int))
  outside : ∀ x, x < numbuf ∨ lastDigit < x → r.1 x = mem x

/-- One more in the last place. -/
theorem pointValue_succ {ds' : List Byte} (hlength : ds'.length = ds.length) (decpt : Int) :
    pointValue ds' decpt = pointValue ds decpt + 10 ^ (decpt - (ds.length : Int)) ↔
      decimal ds' = decimal ds + 1 := by
  have hpos : (0 : ℚ) < 10 ^ (decpt - (ds.length : Int)) := by positivity
  unfold pointValue
  rw [hlength, ← add_one_mul, mul_left_inj' hpos.ne']
  exact_mod_cast Iff.rfl

/-- The carry behind the first digit is lost. -/
theorem ecvround_rounds_iff {lastDigit afterLast : Nat} {decpt : Int} (horder : numbuf ≤ lastDigit)
    (hd : Digits (read mem numbuf (lastDigit - numbuf + 1))) :
    RoundsExactly mem numbuf lastDigit afterLast decpt
        (ecvround mem numbuf lastDigit afterLast decpt) ↔
      mem afterLast ≤ ascii '4' ∨
        ∃ c ∈ read mem numbuf (lastDigit - numbuf + 1), c ≠ ascii '9' := by
  by_cases hsmall : mem afterLast ≤ ascii '4'
  · rw [ecvround, if_neg (BitVec.not_lt.mpr hsmall)]
    refine iff_of_true ⟨hd, ?_, fun _ _ => rfl⟩ (.inl hsmall)
    rw [if_pos hsmall, add_zero]
  · have hcarried := ecvroundLoop_carried hd
    rw [ecvround, if_pos (BitVec.not_le.mp hsmall)]
    generalize ecvroundLoop numbuf (lastDigit - numbuf + 1) mem 1 = r at hcarried
    obtain ⟨mem', carry, left⟩ := r
    have hbranch : ¬ (carry ≠ 0 ∧ left = 1) := by
      rintro ⟨hcarry, hleft⟩
      exact absurd (hleft.symm.trans (hcarried.left hcarry)) one_ne_zero
    have hvalue := hcarried.value
    have hcarry := hcarried.carry
    dsimp only at hvalue hcarry ⊢
    rw [if_neg hbranch]
    have hpow : 0 < 10 ^ (lastDigit - numbuf + 1) := by positivity
    have hlength : (read mem' numbuf (lastDigit - numbuf + 1)).length =
        (read mem numbuf (lastDigit - numbuf + 1)).length := by
      rw [length_read, length_read]
    have hunit := pointValue_succ hlength decpt
    rw [length_read] at hunit
    constructor
    · intro h
      refine .inr ?_
      by_contra hnone
      have hall : ∀ c ∈ read mem numbuf (lastDigit - numbuf + 1), c = ascii '9' := by
        intro c hc
        by_contra hne
        exact hnone ⟨c, hc, hne⟩
      have hexact := h.value
      rw [if_neg hsmall] at hexact
      have hdecimal := hunit.mp hexact
      rw [if_pos hall] at hcarry
      rw [hcarry] at hvalue
      omega
    · rintro (h | ⟨c, hc, hne⟩)
      · exact absurd h hsmall
      rw [if_neg fun hall => hne (hall c hc)] at hcarry
      refine ⟨hcarried.digits, ?_, fun x hx => hcarried.outside x (by omega)⟩
      dsimp only
      rw [if_neg hsmall]
      apply hunit.mpr
      rw [hcarry] at hvalue
      omega

/-- Digits at address 0 and the digit that follows at address 80. -/
def digitBuffer (digits : String) (after : Char) : Memory :=
  write (write (fun _ => 0) 0 (text digits)) 80 [ascii after]

theorem carry_stops_in_buffer :
    read (ecvround (digitBuffer "1299" '5') 0 3 80 1).1 0 4 = text "1300" ∧
      RoundsExactly (digitBuffer "1299" '5') 0 3 80 1
        (ecvround (digitBuffer "1299" '5') 0 3 80 1) := by
  refine ⟨by decide, (ecvround_rounds_iff (by decide) ?_).mpr (.inr ⟨ascii '1', ?_, by decide⟩)⟩
  · unfold Digits
    decide
  · decide

/-- 9.95 is rounded to 0.0 instead of 10.0. -/
theorem nines_become_zero :
    read (ecvround (digitBuffer "99" '5') 0 1 80 1).1 0 2 = text "00" ∧
      (ecvround (digitBuffer "99" '5') 0 1 80 1).2 = 1 ∧
      ¬ RoundsExactly (digitBuffer "99" '5') 0 1 80 1
        (ecvround (digitBuffer "99" '5') 0 1 80 1) := by
  have hdigits : read (ecvround (digitBuffer "99" '5') 0 1 80 1).1 0 2 = text "00" := by decide
  have hold : read (digitBuffer "99" '5') 0 2 = text "99" := by decide
  have hdecpt : (ecvround (digitBuffer "99" '5') 0 1 80 1).2 = 1 := by decide
  refine ⟨hdigits, hdecpt, fun h => ?_⟩
  have hvalue := h.value
  rw [hdecpt, if_neg (by decide), show 1 - 0 + 1 = 2 from rfl, hdigits, hold] at hvalue
  have hdecimal := (@pointValue_succ (text "99") (text "00") rfl 1).mp hvalue
  revert hdecimal
  decide

end PosixRtos.Libc
