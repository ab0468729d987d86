import Mathlib.Data.Nat.Count

/-! Counting the indices below a bound that satisfy a predicate, when the
predicate changes at one index or grows. -/
namespace PosixRtos.Library.Counting

variable {p q : Nat → Prop} [DecidablePred p] [DecidablePred q] {m n j : Nat}

theorem count_le_count (hmn : m ≤ n) (himp : ∀ i < m, p i → q i) :
    Nat.count p m ≤ Nat.count q n :=
  (Nat.count_mono_left himp).trans (Nat.count_monotone q hmn)

/-- The count grows when one more index satisfies the predicate. -/
theorem count_lt_count (hmn : m ≤ n) (himp : ∀ i < m, p i → q i) (hj : j < n) (hq : q j)
    (hp : j < m → ¬ p j) : Nat.count p m < Nat.count q n := by
  rw [Nat.count_eq_card_filter_range, Nat.count_eq_card_filter_range]
  apply Finset.card_lt_card
  refine Finset.ssubset_iff_of_subset ?_ |>.mpr ⟨j, ?_, ?_⟩
  · intro i hi
    simp only [Finset.mem_filter, Finset.mem_range] at hi ⊢
    exact ⟨hi.1.trans_le hmn, himp i hi.1 hi.2⟩
  · simp [hj, hq]
  · simp only [Finset.mem_filter, Finset.mem_range, not_and]
    exact hp

/-- Only the index `j` changes, and it leaves the predicate. -/
theorem count_eq_succ (hother : ∀ i, i ≠ j → (p i ↔ q i)) (hj : j < n) (hp : p j) (hq : ¬ q j) :
    Nat.count p n = Nat.count q n + 1 := by
  rw [Nat.count_eq_card_filter_range, Nat.count_eq_card_filter_range]
  have hinsert : (Finset.range n).filter p = insert j ((Finset.range n).filter q) := by
    ext i
    simp only [Finset.mem_filter, Finset.mem_range, Finset.mem_insert]
    by_cases hij : i = j
    · subst hij
      simp [hj, hp]
    · simp [hij, hother i hij]
  rw [hinsert, Finset.card_insert_of_notMem (by simp [hq])]

/-- Indices beyond `m` that do not satisfy the predicate do not count. -/
theorem count_extend (hmn : m ≤ n) (hp : ∀ i, m ≤ i → ¬ p i) : Nat.count p n = Nat.count p m := by
  apply le_antisymm _ (Nat.count_monotone p hmn)
  obtain ⟨d, rfl⟩ := Nat.exists_eq_add_of_le hmn
  induction d with
  | zero => exact le_rfl
  | succ d ih =>
    rw [← Nat.add_assoc, Nat.count_succ, if_neg (hp (m + d) (Nat.le_add_right m d)), add_zero]
    exact ih (Nat.le_add_right m d)

section Update

variable {β : Type*} [DecidableEq β] {f : Nat → β} {x y : β}

theorem count_update_enter (hj : j < n) (hx : f j ≠ x) :
    Nat.count (fun i => Function.update f j x i = x) n = Nat.count (fun i => f i = x) n + 1 := by
  apply count_eq_succ _ hj (Function.update_self ..) hx
  intro i hij
  rw [Function.update_of_ne hij]

theorem count_update_leave (hj : j < n) (hx : f j = x) (hy : y ≠ x) :
    Nat.count (fun i => f i = x) n = Nat.count (fun i => Function.update f j y i = x) n + 1 := by
  apply count_eq_succ _ hj hx
  · rwa [Function.update_self]
  · intro i hij
    rw [Function.update_of_ne hij]

theorem count_update_other (n : Nat) (hx : f j ≠ x) (hy : y ≠ x) :
    Nat.count (fun i => Function.update f j y i = x) n = Nat.count (fun i => f i = x) n := by
  congr 1
  funext i
  by_cases hij : i = j
  · subst hij
    rw [Function.update_self, eq_iff_iff]
    exact ⟨fun h => absurd h hy, fun h => absurd h hx⟩
  · rw [Function.update_of_ne hij]

end Update

end PosixRtos.Library.Counting
