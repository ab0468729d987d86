import PosixRtos.Kernel.IntrusiveList

/-! `list_remove_node`, one store at a time. The caller does not mask
interrupts, so that an insertion may come between the two stores. The first
node of a list is taken out; until the second store, the links from the head on
skip the node while the links back still lead to it. -/
namespace PosixRtos.Kernel.IntrusiveList

open PosixRtos.Library.Rings

section Stores

variable {α : Type} [DecidableEq α]

/-- `node->prev->next = node->next` -/
def unlinkNext (l : Links α) (node : α) : Links α :=
  { l with next := Function.update l.next (l.prev node) (l.next node) }

/-- `node->next->prev = node->prev` -/
def unlinkPrev (l : Links α) (node : α) : Links α :=
  { l with prev := Function.update l.prev (l.next node) (l.prev node) }

theorem listRemoveNode_eq (l : Links α) (node : α) :
    listRemoveNode l node = unlinkPrev (unlinkNext l node) node := rfl

/-- The links after the second store of a removal that is under way. -/
def settle (l : Links α) : Option α → Links α
  | none => l
  | some node => unlinkPrev l node

@[simp] theorem settle_next (l : Links α) (mid : Option α) : (settle l mid).next = l.next := by
  cases mid <;> rfl

theorem unlinkPrev_prev_of_ne {l : Links α} {node x : α} (hx : x ≠ l.next node) :
    (unlinkPrev l node).prev x = l.prev x :=
  Function.update_of_ne hx ..

theorem unlinkNext_next_of_ne {l : Links α} {node x : α} (hx : x ≠ l.prev node) :
    (unlinkNext l node).next x = l.next x :=
  Function.update_of_ne hx ..

end Stores

variable {H N : Type} {l l' : Links (Cell H N)} {h : H} {b n : N} {mid : Option N} {xs : List N}

/-- The cells whose links the list depends on. -/
def region (h : H) (mid : Option N) (xs : List N) : List (Cell H N) :=
  .head h :: (xs.map .node ++ (mid.map .node).toList)

theorem mem_region_node : Cell.node n ∈ region h mid xs ↔ n ∈ xs ∨ n ∈ mid := by
  cases mid <;> simp [region, eq_comm]

theorem mem_region_head {g : H} : Cell.head g ∈ region h mid xs ↔ g = h := by
  cases mid <;> simp [region]

theorem nodup_head_cons (h : H) (hxs : xs.Nodup) :
    (Cell.head h :: xs.map Cell.node).Nodup := by
  refine List.nodup_cons.mpr ⟨head_notMem_map h xs, hxs.map ?_⟩
  intro a b hab
  exact Cell.node.inj hab

variable [DecidableEq H] [DecidableEq N]

/-- The list of `h` is `xs`, but for the second store of the removal of `mid`. -/
structure Leaving (l : Links (Cell H N)) (h : H) (mid : Option N) (xs : List N) : Prop where
  ring : (settle l (mid.map .node)).Ring (.head h) (xs.map .node)
  nodup : xs.Nodup
  fresh : ∀ b ∈ mid, b ∉ xs
  next : ∀ b ∈ mid, l.next (.node b) = xs.head?.elim (.head h) .node
  prev : ∀ b ∈ mid, l.prev (.node b) = .head h
  back : ∀ b ∈ mid, l.prev (l.next (.node b)) = .node b

theorem leaving_none_iff : Leaving l h none xs ↔ l.Ring (.head h) (xs.map .node) ∧ xs.Nodup := by
  constructor
  · intro hl
    exact ⟨hl.ring, hl.nodup⟩
  · intro hr
    exact ⟨hr.1, hr.2, by simp, by simp, by simp, by simp⟩

/-- The successor of a node on its way out is a cell of the list. -/
theorem Leaving.next_mem (hl : Leaving l h mid xs) (hb : b ∈ mid) :
    l.next (.node b) ∈ Cell.head h :: xs.map Cell.node := by
  rw [hl.next b hb]
  cases xs <;> simp

theorem Leaving.transport (hl : Leaving l h mid xs)
    (hnext : ∀ x ∈ region h mid xs, l'.next x = l.next x)
    (hprev : ∀ x ∈ region h mid xs, l'.prev x = l.prev x) : Leaving l' h mid xs := by
  have hcell : ∀ x ∈ Cell.head h :: xs.map Cell.node, x ∈ region h mid xs := by
    intro x hx
    exact List.mem_append_left _ hx
  have hmid : ∀ b ∈ mid, Cell.node b ∈ region h mid xs := fun b hb =>
    mem_region_node.mpr (.inr hb)
  have hsame : ∀ b ∈ mid, l'.next (.node b) = l.next (.node b) := fun b hb => hnext _ (hmid b hb)
  refine ⟨?_, hl.nodup, hl.fresh, ?_, ?_, ?_⟩
  · apply hl.ring.transport
    · intro x hx
      simp only [settle_next]
      exact hnext x (hcell x hx)
    · intro x hx
      cases mid with
      | none => exact hprev x (hcell x hx)
      | some b =>
        simp only [Option.map_some, settle, unlinkPrev, hsame b rfl, hprev _ (hmid b rfl)]
        by_cases heq : x = l.next (.node b)
        · rw [heq, Function.update_self, Function.update_self]
        · rw [Function.update_of_ne heq, Function.update_of_ne heq]
          exact hprev x (hcell x hx)
  · intro b hb
    rw [hsame b hb]
    exact hl.next b hb
  · intro b hb
    rw [hprev _ (hmid b hb)]
    exact hl.prev b hb
  · intro b hb
    rw [hsame b hb, hprev _ (hcell _ (hl.next_mem hb))]
    exact hl.back b hb

/-- Where an insertion at the tail finds the last cell: in the list, unless the
only node is on its way out. -/
theorem Leaving.last_mem (hl : Leaving l h mid xs)
    (hlast : ∀ b ∈ mid, l.prev (.head h) ≠ .node b) :
    l.prev (.head h) ∈ Cell.head h :: xs.map Cell.node ∧
      (settle l (mid.map .node)).prev (.head h) = l.prev (.head h) := by
  have hmem := ring_prev_mem hl.ring
  have hsame : (settle l (mid.map .node)).prev (.head h) = l.prev (.head h) := by
    cases mid with
    | none => rfl
    | some b =>
      apply unlinkPrev_prev_of_ne
      intro heq
      have hback := hl.back b rfl
      rw [← heq] at hback
      exact hlast b rfl hback
  rw [hsame] at hmem
  exact ⟨hmem, hsame⟩

/-- An insertion at the tail, with or without a removal under way. -/
theorem Leaving.insertTail (hl : Leaving l h mid xs) (hn : n ∉ xs) (hmid : n ∉ mid)
    (hlast : ∀ b ∈ mid, l.prev (.head h) ≠ .node b) :
    Leaving (listInsertTail l (.head h) (.node n)) h mid (xs ++ [n]) := by
  obtain ⟨hmem, hsame⟩ := hl.last_mem hlast
  have hcells := nodup_head_cons h hl.nodup
  have hfresh : Cell.node n ∉ Cell.head h :: xs.map Cell.node := by simpa using hn
  have hring := ring_listInsertTail hl.ring hcells hfresh
  have hnodup : (xs ++ [n]).Nodup :=
    List.nodup_append_comm.mp (List.nodup_cons.mpr ⟨hn, hl.nodup⟩)
  cases mid with
  | none =>
    refine leaving_none_iff.mpr ⟨?_, hnodup⟩
    rw [List.map_append, List.map_singleton]
    exact hring
  | some b =>
    have hbn : b ≠ n := fun heq => hmid (by simp [heq])
    have hb : Cell.node b ∉ Cell.head h :: xs.map Cell.node := by simpa using hl.fresh b rfl
    -- the stores of the insertion are none of the cells that the second store reads
    have hnextB : (listInsertTail l (.head h) (.node n)).next (.node b) = l.next (.node b) := by
      apply rawListInsert_next
      · rintro heq
        exact hb (heq ▸ hmem)
      · simpa using hbn
    have hprevB : (listInsertTail l (.head h) (.node n)).prev (.node b) = l.prev (.node b) := by
      apply rawListInsert_prev
      · simp
      · simpa using hbn
    have hhead : l.next (.node b) ≠ .head h := by
      intro heq
      have hback := hl.back b rfl
      rw [heq] at hback
      exact hlast b rfl hback
    have hnode : l.next (.node b) ≠ .node n := by
      intro heq
      exact hfresh (heq ▸ hl.next_mem rfl)
    have hcommute : settle (listInsertTail l (.head h) (.node n)) (some (.node b)) =
        listInsertTail (settle l (some (.node b))) (.head h) (.node n) := by
      have hread : (unlinkPrev l (.node b)).prev (.head h) = l.prev (.head h) := hsame
      simp only [settle, listInsertTail] at hread ⊢
      rw [hread]
      unfold unlinkPrev
      rw [show (rawListInsert l (l.prev (.head h)) (.head h) (.node n)).next (.node b) =
        l.next (.node b) from hnextB, show (rawListInsert l (l.prev (.head h)) (.head h)
        (.node n)).prev (.node b) = l.prev (.node b) from hprevB]
      simp only [rawListInsert, Links.mk.injEq, and_true]
      rw [Function.update_comm hnode.symm, Function.update_comm hhead.symm]
    refine ⟨?_, hnodup, ?_, ?_, ?_, ?_⟩
    · rw [Option.map_some, hcommute, List.map_append, List.map_singleton]
      exact hring
    · intro a ha
      cases ha
      simpa [hbn] using hl.fresh b rfl
    · intro a ha
      cases ha
      rw [hnextB]
      have hfirst := hl.next b rfl
      cases xs with
      | nil => exact absurd hfirst hhead
      | cons x rest => exact hfirst
    · intro a ha
      cases ha
      rw [hprevB]
      exact hl.prev b rfl
    · intro a ha
      cases ha
      rw [hnextB]
      unfold listInsertTail
      rw [rawListInsert_prev hhead hnode]
      exact hl.back b rfl

/-- The first store of the removal of the first node. -/
theorem Leaving.unlinkNext (hl : Leaving l h none (b :: xs)) :
    Leaving (unlinkNext l (.node b)) h (some b) xs := by
  obtain ⟨hring, hnodup⟩ := leaving_none_iff.mp hl
  have hcells : (Cell.head h :: ([] ++ Cell.node b :: xs.map Cell.node)).Nodup :=
    nodup_head_cons h hnodup
  have hr : l.Ring (.head h) ([] ++ Cell.node b :: xs.map Cell.node) := hring
  have hprev : l.prev (.node b) = .head h := hr.prev_member
  have hnext : l.next (.node b) = xs.head?.elim (.head h) .node := by
    rw [hr.next_member]
    cases xs <;> rfl
  have hkept : (IntrusiveList.unlinkNext l (.node b)).next (.node b) = l.next (.node b) := by
    apply unlinkNext_next_of_ne
    rw [hprev]
    simp
  refine ⟨?_, (List.nodup_cons.mp hnodup).2, ?_, ?_, ?_, ?_⟩
  · have hremoved := ring_listRemoveNode hr hcells
    rw [listRemoveNode_eq] at hremoved
    exact hremoved
  · intro a ha
    cases ha
    exact (List.nodup_cons.mp hnodup).1
  · intro a ha
    cases ha
    rw [hkept, hnext]
  · intro a ha
    cases ha
    exact hprev
  · intro a ha
    cases ha
    rw [hkept]
    change l.prev (l.next (.node b)) = .node b
    rw [hnext]
    cases xs with
    | nil => exact (hr.linked (show _ = [.head h] ++ .node b :: .head h :: [] from rfl)).2
    | cons x rest =>
      exact (hr.linked (show _ = [.head h] ++ .node b :: .node x ::
        (rest.map .node ++ [.head h]) from rfl)).2

/-- The second store completes the removal. -/
theorem Leaving.unlinkPrev (hl : Leaving l h (some b) xs) :
    Leaving (unlinkPrev l (.node b)) h none xs :=
  leaving_none_iff.mpr ⟨hl.ring, hl.nodup⟩

/-- What the loop finds at the head. -/
theorem Leaving.next_head (hl : Leaving l h mid xs) :
    l.next (.head h) = xs.head?.elim (.head h) .node := by
  have hfirst := hl.ring.next_head
  rw [settle_next] at hfirst
  rw [hfirst]
  cases xs <;> rfl

end PosixRtos.Kernel.IntrusiveList
