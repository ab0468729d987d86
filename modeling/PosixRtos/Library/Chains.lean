import Mathlib.Tactic

/-! Chains in a table of successors: every node but the last leads to the one behind it,
and the last one to a value that marks an end. -/
namespace PosixRtos.Library.Chains

def Linked (next : α → α) (final : α → Prop) : List α → Prop
  | [] => True
  | [c] => final (next c)
  | c :: d :: cs => next c = d ∧ Linked next final (d :: cs)

variable {next next' : α → α} {final : α → Prop} {c d : α} {cs ds : List α}

/-- Only the entries of the nodes count. -/
theorem Linked.congr (h : Linked next final cs) (hnext : ∀ c ∈ cs, next' c = next c) :
    Linked next' final cs := by
  induction cs with
  | nil => trivial
  | cons c cs ih =>
    cases cs with
    | nil =>
      have hlast := hnext c List.mem_cons_self
      simpa [Linked, hlast] using h
    | cons d cs =>
      refine ⟨(hnext c List.mem_cons_self).trans h.1, ih h.2 ?_⟩
      intro e he
      exact hnext e (List.mem_cons_of_mem c he)

theorem Linked.tail (h : Linked next final (c :: cs)) : Linked next final cs := by
  cases cs with
  | nil => trivial
  | cons d cs => exact h.2

/-- A node that is not the last one leads to the next one. -/
theorem Linked.next_eq (h : Linked next final cs) {i : Nat} (hi : i + 1 < cs.length) :
    next cs[i] = cs[i + 1] := by
  induction cs generalizing i with
  | nil => simp at hi
  | cons c cs ih =>
    cases cs with
    | nil => simp at hi
    | cons d cs =>
      cases i with
      | zero => exact h.1
      | succ i =>
        have hrest := ih h.2 (i := i) (by simpa using hi)
        simpa using hrest

theorem Linked.last (h : Linked next final (cs ++ [c])) : final (next c) := by
  induction cs with
  | nil => exact h
  | cons d cs ih => exact ih h.tail

/-- A node that leads to an end or to a node of the chain cannot lead elsewhere. -/
theorem Linked.mem_cases (h : Linked next final cs) (hc : c ∈ cs) :
    next c ∈ cs ∨ final (next c) := by
  induction cs with
  | nil => cases hc
  | cons d cs ih =>
    cases cs with
    | nil =>
      obtain rfl := List.mem_singleton.mp hc
      exact .inr h
    | cons e cs =>
      rcases List.mem_cons.mp hc with rfl | hc
      · left
        rw [h.1]
        simp
      · rcases ih h.2 hc with hmem | hend
        · exact .inl (List.mem_cons_of_mem d hmem)
        · exact .inr hend

/-- A new node behind the last one. -/
theorem Linked.extend (h : Linked next final (cs ++ [c])) (hnext : ∀ e ∈ cs, next' e = next e)
    (hlink : next' c = d) (hend : final (next' d)) : Linked next' final (cs ++ [c, d]) := by
  induction cs with
  | nil => exact ⟨hlink, hend⟩
  | cons e cs ih =>
    have hrest := ih h.tail fun x hx => hnext x (List.mem_cons_of_mem e hx)
    have hfirst := hnext e List.mem_cons_self
    cases cs with
    | nil => exact ⟨hfirst.trans h.1, hrest⟩
    | cons f cs => exact ⟨hfirst.trans h.1, hrest⟩

/-- The chain is cut behind a node that has become the last one. -/
theorem Linked.cut (h : Linked next final (cs ++ c :: ds)) (hnext : ∀ e ∈ cs, next' e = next e)
    (hend : final (next' c)) : Linked next' final (cs ++ [c]) := by
  induction cs with
  | nil => exact hend
  | cons e cs ih =>
    have hrest := ih h.tail fun x hx => hnext x (List.mem_cons_of_mem e hx)
    have hfirst := hnext e List.mem_cons_self
    cases cs with
    | nil => exact ⟨hfirst.trans h.1, hrest⟩
    | cons f cs => exact ⟨hfirst.trans h.1, hrest⟩

/-- What is behind a node is a chain. -/
theorem Linked.drop (h : Linked next final (cs ++ ds)) : Linked next final ds := by
  induction cs with
  | nil => exact h
  | cons e cs ih => exact ih h.tail

/-- A walk goes on in one way only. -/
theorem Linked.unique {es : List α} (h : Linked next final (c :: cs))
    (h' : Linked next final (c :: es)) (hcs : ∀ d ∈ cs, ¬ final d) (hes : ∀ d ∈ es, ¬ final d) :
    cs = es := by
  induction cs generalizing c es with
  | nil =>
    cases es with
    | nil => rfl
    | cons e es =>
      have hfinal : final (next c) := h
      rw [h'.1] at hfinal
      exact absurd hfinal (hes e List.mem_cons_self)
  | cons d cs ih =>
    cases es with
    | nil =>
      have hfinal : final (next c) := h'
      rw [h.1] at hfinal
      exact absurd hfinal (hcs d List.mem_cons_self)
    | cons e es =>
      obtain rfl : d = e := h.1.symm.trans h'.1
      rw [ih h.2 h'.2 (fun x hx => hcs x (List.mem_cons_of_mem d hx))
        fun x hx => hes x (List.mem_cons_of_mem d hx)]

/-- It comes to no node again. -/
theorem Linked.nodup (h : Linked next final cs) (hcs : ∀ c ∈ cs, ¬ final c) : cs.Nodup := by
  induction cs with
  | nil => exact List.nodup_nil
  | cons c cs ih =>
    have hrest : ∀ d ∈ cs, ¬ final d := fun d hd => hcs d (List.mem_cons_of_mem c hd)
    refine List.nodup_cons.mpr ⟨fun hmem => ?_, ih h.tail hrest⟩
    obtain ⟨as, bs, rfl⟩ := List.append_of_mem hmem
    have hagain : Linked next final (c :: bs) := h.tail.drop
    have hsame := h.unique hagain hrest fun d hd => hrest d (by simp [hd])
    have hlength := congrArg List.length hsame
    rw [List.length_append, List.length_cons] at hlength
    omega

/-! Any number of chains without a node in common. -/

/-- Replaces a chain by another that starts out as a permutation with more nodes. -/
theorem flatten_set {css : List (List α)} {i : Nat} (hi : i < css.length) (cs' : List α) :
    (css.set i (css[i] ++ cs')).flatten.Perm (cs' ++ css.flatten) := by
  induction css generalizing i with
  | nil => cases hi
  | cons ds css ih =>
    cases i with
    | zero =>
      simp only [List.set_cons_zero, List.getElem_cons_zero, List.flatten_cons]
      rw [← List.append_assoc]
      exact List.Perm.append_right _ List.perm_append_comm
    | succ i =>
      simp only [List.set_cons_succ, List.getElem_cons_succ, List.flatten_cons]
      have hrest := (ih (Nat.lt_of_succ_lt_succ hi)).append_left ds
      refine hrest.trans ?_
      rw [← List.append_assoc, ← List.append_assoc]
      exact List.Perm.append_right _ List.perm_append_comm

theorem flatten_eraseIdx {css : List (List α)} {i : Nat} (hi : i < css.length) :
    css.flatten.Perm (css[i] ++ (css.eraseIdx i).flatten) := by
  induction css generalizing i with
  | nil => cases hi
  | cons ds css ih =>
    cases i with
    | zero => simp
    | succ i =>
      simp only [List.eraseIdx_cons_succ, List.getElem_cons_succ, List.flatten_cons]
      refine ((ih (Nat.lt_of_succ_lt_succ hi)).append_left ds).trans ?_
      rw [← List.append_assoc, ← List.append_assoc]
      exact List.Perm.append_right _ List.perm_append_comm

end PosixRtos.Library.Chains
