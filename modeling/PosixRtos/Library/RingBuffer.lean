import Mathlib.Tactic

/-! A ring of `n` cells that holds a bounded queue: the queue starts at cell `r`
and goes round, and the cells outside of it are empty. -/
namespace PosixRtos.Library.RingBuffer

structure Holds (n r : Nat) (cell : Nat → Option α) (q : List α) : Prop where
  start : r < n
  fits : q.length ≤ n
  cells : ∀ i < n, cell ((r + i) % n) = q[i]?

variable {n r : Nat} {cell cell' : Nat → Option α} {q : List α} {x : α}

/-- Only the cells below `n` matter. -/
theorem Holds.congr (h : Holds n r cell q) (hcell : ∀ j < n, cell' j = cell j) :
    Holds n r cell' q where
  start := h.start
  fits := h.fits
  cells i hi := by
    rw [hcell _ (Nat.mod_lt _ (by omega)), h.cells i hi]

/-- Within one turn different offsets are different cells. -/
theorem index_injective {i j : Nat} (hi : i < n) (hj : j < n) (h : (r + i) % n = (r + j) % n) :
    i = j := by
  have hmod : i % n = j % n := Nat.ModEq.add_left_cancel' r h
  rwa [Nat.mod_eq_of_lt hi, Nat.mod_eq_of_lt hj] at hmod

theorem Holds.first (h : Holds n r cell q) : cell r = q.head? := by
  have h₀ := h.cells 0 (by have := h.start; omega)
  rwa [add_zero, Nat.mod_eq_of_lt h.start, ← List.head?_eq_getElem?] at h₀

/-- The cell behind the queue is empty unless the queue fills the ring. -/
theorem Holds.behind (h : Holds n r cell q) (hroom : q.length < n) :
    cell ((r + q.length) % n) = none := by
  rw [h.cells _ hroom]
  exact List.getElem?_eq_none le_rfl

theorem Holds.push (h : Holds n r cell q) (hroom : q.length < n) :
    Holds n r (Function.update cell ((r + q.length) % n) (some x)) (q ++ [x]) where
  start := h.start
  fits := by simpa using hroom
  cells i hi := by
    by_cases hiq : i = q.length
    · subst hiq
      simp
    · have hne : (r + i) % n ≠ (r + q.length) % n := fun heq => hiq (index_injective hi hroom heq)
      rw [Function.update_of_ne hne, h.cells i hi]
      rcases Nat.lt_or_gt_of_ne hiq with hlt | hgt
      · rw [List.getElem?_append_left hlt]
      · rw [List.getElem?_eq_none hgt.le, List.getElem?_eq_none (by simp; omega)]

theorem Holds.pop (h : Holds n r cell (x :: q)) :
    Holds n ((r + 1) % n) (Function.update cell r none) q where
  start := Nat.mod_lt _ (by have := h.start; omega)
  fits := by
    have := h.fits
    simp at this
    omega
  cells i hi := by
    have hindex : ((r + 1) % n + i) % n = (r + (i + 1)) % n := by
      rw [Nat.mod_add_mod]
      congr 1
      omega
    rw [hindex]
    rcases Nat.lt_or_ge (i + 1) n with hlt | hge
    · have hne : (r + (i + 1)) % n ≠ r := by
        intro heq
        have hzero : i + 1 = 0 := index_injective (r := r) hlt (by omega) (by
          rw [heq, add_zero, Nat.mod_eq_of_lt h.start])
        omega
      rw [Function.update_of_ne hne, h.cells _ hlt, List.getElem?_cons_succ]
    · -- the last offset is the cell that has just been emptied
      have hround : (r + (i + 1)) % n = r := by
        rw [show i + 1 = n by omega, Nat.add_mod_right, Nat.mod_eq_of_lt h.start]
      have hshort : q.length ≤ i := by
        have := h.fits
        simp at this
        omega
      rw [hround, Function.update_self, List.getElem?_eq_none hshort]

/-- The queue is in the cells from `r` on; what the other cells hold does not
matter. -/
structure Occupies (n r : Nat) (cell : Nat → Option α) (q : List α) : Prop where
  start : r < n
  fits : q.length ≤ n
  cells : ∀ i < q.length, cell ((r + i) % n) = q[i]?

theorem Occupies.nil (hr : r < n) : Occupies n r cell [] where
  start := hr
  fits := Nat.zero_le n
  cells i hi := absurd hi (Nat.not_lt_zero i)

theorem Occupies.first (h : Occupies n r cell (x :: q)) : cell r = some x := by
  have h₀ := h.cells 0 (by simp)
  rwa [add_zero, Nat.mod_eq_of_lt h.start, List.getElem?_cons_zero] at h₀

/-- The cell behind the queue is free for a store. -/
theorem Occupies.store (h : Occupies n r cell q) (hroom : q.length < n)
    (hcell : ∀ j < n, j ≠ (r + q.length) % n → cell' j = cell j) : Occupies n r cell' q where
  start := h.start
  fits := h.fits
  cells i hi := by
    have hne : (r + i) % n ≠ (r + q.length) % n := fun heq =>
      hi.ne (index_injective (hi.trans hroom) hroom heq)
    rw [hcell _ (Nat.mod_lt _ (by omega)) hne, h.cells i hi]

theorem Occupies.push (h : Occupies n r cell q) (hroom : q.length < n)
    (hx : cell ((r + q.length) % n) = some x) : Occupies n r cell (q ++ [x]) where
  start := h.start
  fits := by simpa using hroom
  cells i hi := by
    rw [List.length_append, List.length_singleton] at hi
    rcases Nat.lt_succ_iff_lt_or_eq.mp hi with hlt | rfl
    · rw [h.cells i hlt, List.getElem?_append_left hlt]
    · rw [hx, List.getElem?_concat_length]

theorem Occupies.pop (h : Occupies n r cell (x :: q)) : Occupies n ((r + 1) % n) cell q where
  start := Nat.mod_lt _ (by have := h.start; omega)
  fits := (Nat.le_succ _).trans h.fits
  cells i hi := by
    have hnext := h.cells (i + 1) (by simpa using hi)
    rw [List.getElem?_cons_succ] at hnext
    rw [Nat.mod_add_mod, Nat.add_assoc, Nat.add_comm 1 i, hnext]

theorem Occupies.front {y : α} (h : Occupies n r cell (q ++ [y])) : Occupies n r cell q where
  start := h.start
  fits := by
    have := h.fits
    rw [List.length_append] at this
    omega
  cells i hi := by
    have hcell := h.cells i (by rw [List.length_append]; omega)
    rwa [List.getElem?_append_left hi] at hcell

/-- The last element may be overwritten in its cell. -/
theorem Occupies.overwrite {y : α} (h : Occupies n r cell (q ++ [y]))
    (hcell : ∀ j < n, j ≠ (r + q.length) % n → cell' j = cell j)
    (hx : cell' ((r + q.length) % n) = some x) : Occupies n r cell' (q ++ [x]) := by
  have hroom : q.length < n := by
    have := h.fits
    rw [List.length_append, List.length_singleton] at this
    omega
  exact (h.front.store hroom hcell).push hroom hx

end PosixRtos.Library.RingBuffer
