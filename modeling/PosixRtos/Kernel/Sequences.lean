import PosixRtos.Kernel.IntrusiveList

/-! `list.h` on sequences. A memory holds any number of disjoint lists and nodes that are in
none of them; each operation is one on the sequences. -/
namespace PosixRtos.Kernel.IntrusiveList

open PosixRtos.Library.Rings

variable {α σ ι : Type} [DecidableEq α] {links : σ → Links α} {l : Links α} {heads : ι → α}
  {L : ι → List α} {i : ι} {body : α → σ → Option σ} {s : σ} {fuel : Nat}

/-- The body leaves the lists alone, or takes the current node out of the list and puts it
anywhere into another one. -/
def MovesCurrent (links : σ → Links α) (heads : ι → α) (i : ι) (body : α → σ → Option σ) : Prop :=
  ∀ x s s' L, DisjointRings (links s) heads L → x ∈ L i → body x s = some s' →
    ∃ L', DisjointRings (links s') heads L' ∧ (∀ j, (L' j).erase x = (L j).erase x) ∧
      (x ∈ L' i → L' i = L i)

/-- The nodes that are still to come are the rest of the list. -/
theorem listForEachEntrySafe_rings (hbody : MovesCurrent links heads i body)
    (hl : DisjointRings (links s) heads L) (hfuel : (L i).length < fuel) :
    listForEachEntrySafe links (heads i) body fuel s = (L i).foldlM (fun s x => body x s) s := by
  unfold listForEachEntrySafe
  dsimp only
  rw [(hl.ring i).next_head]
  refine forEachEntrySafe_eq_foldlM links (heads i) body
    (fun rem s => ∃ L pre, DisjointRings (links s) heads L ∧ L i = pre ++ rem) ?_ ?_ (L i) s fuel
    ⟨L, [], hl, rfl⟩ hfuel
  · rintro rem s ⟨L, pre, hl, hsplit⟩
    have hnodup := hl.nodup i
    have hring := hl.ring i
    rw [hsplit] at hnodup hring
    refine ⟨fun h => (List.nodup_cons.mp hnodup).1 (List.mem_append_right _ h), ?_⟩
    have hshape : heads i :: (pre ++ rem) ++ [heads i] =
        (heads i :: pre) ++ (rem ++ [heads i]) := by
      simp
    unfold Links.Ring Links.Chain at hring
    rw [hshape] at hring
    exact List.IsChain.right_of_append hring
  · rintro x rem s s' ⟨L, pre, hl, hsplit⟩ hs
    have hx : x ∈ L i := hsplit ▸ List.mem_append_right _ List.mem_cons_self
    obtain ⟨L', hl', hrest, hstays⟩ := hbody x s s' L hl hx hs
    by_cases hx' : x ∈ L' i
    · exact ⟨L', pre ++ [x], hl', by rw [hstays hx', hsplit, List.append_assoc]; rfl⟩
    · have hnodes := (List.nodup_cons.mp (hl.nodup i)).2
      rw [hsplit, List.nodup_middle, List.nodup_cons] at hnodes
      have hpre : x ∉ pre := fun h => hnodes.1 (List.mem_append_left _ h)
      refine ⟨L', pre, hl', ?_⟩
      rw [← List.erase_of_not_mem hx', hrest i, hsplit, List.erase_append_right _ hpre,
        List.erase_cons_head]

variable [DecidableEq ι]

/-- `list_remove_node` of the current node and `list_insert_tail` to the list that `target`
names, as in `sched_set_thread_ready`. -/
def moveCurrent (heads : ι → α) (target : α → Option ι) (x : α) (l : Links α) :
    Option (Links α) :=
  match target x with
  | none => some l
  | some j => some (listInsertTail (listRemoveNode l x) (heads j) x)

theorem movesCurrent_moveCurrent {target : α → Option ι} (htarget : ∀ x, target x ≠ some i) :
    MovesCurrent id heads i (moveCurrent heads target) := by
  intro x l l' L hl hx hcall
  unfold moveCurrent at hcall
  cases hj : target x with
  | none =>
    rw [hj] at hcall
    obtain rfl := Option.some.inj hcall
    exact ⟨L, hl, fun _ => rfl, fun _ => rfl⟩
  | some j =>
    rw [hj] at hcall
    obtain rfl := Option.some.inj hcall
    have hji : j ≠ i := fun h => htarget x (h ▸ hj)
    have hout := unlinked_removed hl hx
    have hnodes := (List.nodup_cons.mp (hl.nodup i)).2
    refine ⟨_, rings_listInsertTail (rings_listRemoveNode hl hx) j hout, fun k => ?_, fun h => ?_⟩
    · by_cases hkj : k = j
      · subst hkj
        have hfresh : x ∉ L k := fun h =>
          hl.disjoint hji (List.mem_cons_of_mem _ h) (List.mem_cons_of_mem _ hx)
        rw [Function.update_self, Function.update_of_ne hji, List.erase_append_right _ hfresh,
          List.erase_cons_head, List.append_nil, List.erase_of_not_mem hfresh]
      · rw [Function.update_of_ne hkj]
        by_cases hki : k = i
        · subst hki
          rw [Function.update_self, List.erase_of_not_mem hnodes.not_mem_erase]
        · rw [Function.update_of_ne hki]
    · rw [Function.update_of_ne (Ne.symm hji), Function.update_self] at h
      exact absurd h hnodes.not_mem_erase

/-- The lists as sequences. A node whose links point to itself may be a list without
nodes or in no list. -/
theorem list_refines_sequences (hl : DisjointRings l heads L) :
    (∀ i n, Unlinked heads L n →
      DisjointRings (listInsertHead l (heads i) n) heads (Function.update L i (n :: L i)) ∧
      DisjointRings (listInsertTail l (heads i) n) heads (Function.update L i (L i ++ [n])) ∧
      ∀ x, x ∉ heads i :: L i → x ≠ n →
        l.SameAt (listInsertHead l (heads i) n) x ∧ l.SameAt (listInsertTail l (heads i) n) x) ∧
    (∀ i, ∀ n ∈ L i,
      DisjointRings (listRemoveNode l n) heads (Function.update L i ((L i).erase n)) ∧
      Unlinked heads (Function.update L i ((L i).erase n)) n ∧
      ∀ x, x ∉ heads i :: L i → l.SameAt (listRemoveNode l n) x) ∧
    (∀ n, l.next n = n → l.prev n = n → listRemoveNode l n = l) ∧
    ∀ (links : σ → Links α) (body : α → σ → Option σ) i s fuel, links s = l →
      MovesCurrent links heads i body → (L i).length < fuel →
      listForEachEntrySafe links (heads i) body fuel s =
        (L i).foldlM (fun s x => body x s) s := by
  refine ⟨fun i n hn => ?_, fun i n hn => ?_, fun n hnext hprev => ?_, ?_⟩
  · refine ⟨rings_listInsertHead hl i hn, rings_listInsertTail hl i hn, fun x hx hxn => ?_⟩
    exact ⟨listInsertHead_same (hl.ring i) hx hxn, listInsertTail_same (hl.ring i) hx hxn⟩
  · exact ⟨rings_listRemoveNode hl hn, unlinked_removed hl hn,
      fun x hx => listRemoveNode_same (hl.ring i) hn hx⟩
  · exact listRemoveNode_self hnext hprev
  · intro links body i s fuel hs hbody hfuel
    subst hs
    exact listForEachEntrySafe_rings hbody hl hfuel

/-- The lists 1, 2, 3 and 11 at the heads 0 and 10; every other node is linked to itself. -/
def twoLists : Links Nat where
  prev
    | 0 => 3
    | 1 => 0
    | 2 => 1
    | 3 => 2
    | 10 => 11
    | 11 => 10
    | x => x
  next
    | 0 => 1
    | 1 => 2
    | 2 => 3
    | 3 => 0
    | 10 => 11
    | 11 => 10
    | x => x

def twoHeads (i : Bool) : Nat := if i then 10 else 0

def twoSequences (i : Bool) : List Nat := if i then [11] else [1, 2, 3]

theorem twoLists_rings : DisjointRings twoLists twoHeads twoSequences where
  ring i := by
    unfold Links.Ring Links.Chain Links.Linked
    cases i <;> decide
  nodup := by decide
  disjoint := by
    unfold List.Disjoint
    intro i j hij
    cases i <;> cases j <;> simp_all [twoHeads, twoSequences]

/-- The odd nodes of the first list move to the second one. -/
theorem odd_nodes_move :
    listForEachEntrySafe id 0 (moveCurrent twoHeads fun x => if x % 2 = 1 then some true else none)
      4 twoLists = [1, 2, 3].foldlM (fun l x => moveCurrent twoHeads
        (fun x => if x % 2 = 1 then some true else none) x l) twoLists ∧
    listRemoveNode twoLists 20 = twoLists ∧
    DisjointRings (listInsertHead twoLists 10 20) twoHeads
      (Function.update twoSequences true [20, 11]) := by
  obtain ⟨hinsert, -, hself, hloop⟩ := @list_refines_sequences Nat (Links Nat) Bool _ _ _ _ _
    twoLists_rings
  refine ⟨hloop id _ false twoLists 4 rfl (movesCurrent_moveCurrent fun x h => ?_) (by decide),
    hself 20 rfl rfl, (hinsert true 20 (by unfold Unlinked; decide)).1⟩
  by_cases hx : x % 2 = 1
  · rw [if_pos hx] at h
    cases h
  · rw [if_neg hx] at h
    cases h

end PosixRtos.Kernel.IntrusiveList
