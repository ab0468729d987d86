import Mathlib.Tactic
import PosixRtos.Kernel.Sched

/-! The group word of the scheduler: setting and clearing the bit of a priority,
and the byte-wise search for its highest set bit. -/
namespace PosixRtos.Kernel

theorem getLsbD_setBit (g : BitVec 32) (p q : Priority) :
    (g ||| (1#32 <<< p.val)).getLsbD q = true ↔ g.getLsbD q = true ∨ q = p := by
  have hq : q.val < 32 := q.isLt
  have hp : p.val < 32 := p.isLt
  simp only [BitVec.getLsbD_or, BitVec.getLsbD_shiftLeft, Bool.or_eq_true, Bool.and_eq_true,
    decide_eq_true_eq, hq, BitVec.getLsbD_one, true_and, Fin.ext_iff]
  constructor
  · rintro (hg | ⟨hlt, -, hz⟩)
    · exact .inl hg
    · exact .inr (by simp at hlt; omega)
  · rintro (hg | hqp)
    · exact .inl hg
    · exact .inr (by simp [hqp])

theorem getLsbD_clearBit (g : BitVec 32) (p q : Priority) :
    (g &&& ~~~(1#32 <<< p.val)).getLsbD q = true ↔ g.getLsbD q = true ∧ q ≠ p := by
  have hq : q.val < 32 := q.isLt
  have hset := getLsbD_setBit 0#32 p q
  simp only [BitVec.zero_or, BitVec.getLsbD_zero, Bool.false_eq_true, false_or] at hset
  simp only [BitVec.getLsbD_and, BitVec.getLsbD_not, hq, decide_true, Bool.true_and,
    Bool.and_eq_true, Bool.not_eq_true', ne_eq]
  rw [← hset, Bool.not_eq_true]

private theorem remapTable_eq_log2 :
    ∀ i : Fin 256, i ≠ 0 → schedPriorityRemapTable.getD i.val 0 = Nat.log2 i.val := by
  decide +kernel

/-- The masks of the search select one byte each; once the bytes above are
known to be zero, the test says whether the word reaches that byte. -/
private theorem and_byteMask_eq_zero_iff {g : BitVec 32} (mask : BitVec 32) (low : Nat)
    (hmask : ∀ i : Fin 32, mask.getLsbD i.val = decide (low ≤ i.val ∧ i.val < low + 8))
    (hg : g.toNat < 2 ^ (low + 8)) : g &&& mask = 0 ↔ g.toNat < 2 ^ low := by
  constructor
  · intro hzero
    apply Nat.lt_pow_two_of_testBit
    intro i hi
    by_cases htop : low + 8 ≤ i
    · exact Nat.testBit_lt_two_pow (hg.trans_le (Nat.pow_le_pow_right (by decide) htop))
    · by_cases h32 : i < 32
      · have hbit := congrArg (fun v : BitVec 32 => v.getLsbD i) hzero
        have hone : mask.getLsbD i = true := by
          rw [hmask ⟨i, h32⟩]
          simp only [decide_eq_true_eq]
          omega
        simp only [BitVec.getLsbD_and, hone, Bool.and_true] at hbit
        rw [BitVec.testBit_toNat, hbit]
        simp
      · exact Nat.testBit_lt_two_pow (g.isLt.trans_le (Nat.pow_le_pow_right (by decide) (by omega)))
  · intro hlt
    apply BitVec.eq_of_getLsbD_eq
    intro i hi
    rw [BitVec.getLsbD_and, hmask ⟨i, hi⟩]
    by_cases hlow : low ≤ i
    · have hfalse : g.getLsbD i = false := by
        rw [← BitVec.testBit_toNat]
        exact Nat.testBit_lt_two_pow (hlt.trans_le (Nat.pow_le_pow_right (by decide) hlow))
      simp [hfalse]
    · simp [hlow]

/-- The table gives the logarithm of a byte; shifted into place, that of the word. -/
private theorem remapTable_shifted {n : Nat} (low : Nat) (hlow : 2 ^ low ≤ n)
    (hhigh : n < 2 ^ (low + 8)) :
    schedPriorityRemapTable.getD (n / 2 ^ low) 0 + low = Nat.log2 n := by
  have hpos : 0 < n / 2 ^ low := Nat.div_pos hlow (by positivity)
  have hbyte : n / 2 ^ low < 256 := by
    rw [Nat.div_lt_iff_lt_mul (by positivity)]
    rw [pow_add] at hhigh
    omega
  have htable := remapTable_eq_log2 ⟨n / 2 ^ low, hbyte⟩ (by
    intro h
    exact hpos.ne' (congrArg Fin.val h))
  have hn : n ≠ 0 := by
    rintro rfl
    simp at hpos
  rw [show schedPriorityRemapTable.getD (n / 2 ^ low) 0 = Nat.log2 (n / 2 ^ low) from htable]
  symm
  rw [Nat.log2_eq_iff hn]
  have hself := Nat.log2_self_le hpos.ne'
  have hnext := Nat.lt_log2_self (n := n / 2 ^ low)
  constructor
  · rw [pow_add]
    exact (Nat.le_div_iff_mul_le (by positivity)).mp hself
  · rw [show (n / 2 ^ low).log2 + low + 1 = (n / 2 ^ low).log2 + 1 + low by ring, pow_add]
    exact (Nat.div_lt_iff_lt_mul (by positivity)).mp hnext

theorem schedGetHighestReadyGroup_eq_log2 {g : BitVec 32} (hg : g ≠ 0) :
    schedGetHighestReadyGroup g = Nat.log2 g.toNat := by
  have hpos : g.toNat ≠ 0 := fun h => hg (BitVec.eq_of_toNat_eq (by simpa using h))
  have h24 := and_byteMask_eq_zero_iff 0xff000000#32 24 (by decide) g.isLt
  unfold schedGetHighestReadyGroup
  split
  · next hbyte =>
    rw [ne_eq, h24, not_lt] at hbyte
    rw [BitVec.toNat_ushiftRight, Nat.shiftRight_eq_div_pow]
    exact remapTable_shifted _ hbyte g.isLt
  next hbyte =>
  rw [ne_eq, h24, not_not] at hbyte
  have h16 := and_byteMask_eq_zero_iff 0x00ff0000#32 16 (by decide) hbyte
  split
  · next hbyte' =>
    rw [ne_eq, h16, not_lt] at hbyte'
    rw [BitVec.toNat_ushiftRight, Nat.shiftRight_eq_div_pow]
    exact remapTable_shifted _ hbyte' hbyte
  next hbyte' =>
  rw [ne_eq, h16, not_not] at hbyte'
  have h8 := and_byteMask_eq_zero_iff 0x0000ff00#32 8 (by decide) hbyte'
  split
  · next hbyte'' =>
    rw [ne_eq, h8, not_lt] at hbyte''
    rw [BitVec.toNat_ushiftRight, Nat.shiftRight_eq_div_pow]
    exact remapTable_shifted _ hbyte'' hbyte'
  next hbyte'' =>
  rw [ne_eq, h8, not_not] at hbyte''
  have hshift := remapTable_shifted 0 (Nat.one_le_iff_ne_zero.mpr hpos) hbyte''
  rwa [pow_zero, Nat.div_one, add_zero] at hshift

theorem schedGetHighestReadyGroup_lt (g : BitVec 32) : schedGetHighestReadyGroup g < 32 := by
  by_cases hg : g = 0
  · subst hg
    decide
  · rw [schedGetHighestReadyGroup_eq_log2 hg,
      Nat.log2_lt (fun h => hg (BitVec.eq_of_toNat_eq (by simpa using h)))]
    exact g.isLt

/-- The search returns the index of the highest set bit. -/
theorem schedGetHighestReadyGroup_spec {g : BitVec 32} (hg : g ≠ 0) :
    g.getLsbD (schedGetHighestReadyGroup g) = true ∧
      ∀ i, schedGetHighestReadyGroup g < i → g.getLsbD i = false := by
  have hpos : g.toNat ≠ 0 := fun h => hg (BitVec.eq_of_toNat_eq (by simpa using h))
  rw [schedGetHighestReadyGroup_eq_log2 hg]
  constructor
  · rw [← BitVec.testBit_toNat]
    exact Nat.testBit_log2 hpos
  · intro i hi
    rw [← BitVec.testBit_toNat]
    exact Nat.testBit_lt_two_pow ((Nat.log2_lt hpos).mp hi)

end PosixRtos.Kernel
