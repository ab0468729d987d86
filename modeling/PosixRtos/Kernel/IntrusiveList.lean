import Mathlib.Logic.Function.Basic
import PosixRtos.Library.Rings

/-! `list.h`. Every kernel object is linked into its lists through a node of
its own, and `list_remove_node` takes a node out without being told which list
it is in. The functions below are the source's stores into `prev` and `next`;
the theorems say what they do to the sequences that the links represent. -/
namespace PosixRtos.Kernel.IntrusiveList

open PosixRtos.Library.Rings

variable {α : Type} [DecidableEq α]

def listInit (l : Links α) (link : α) : Links α where
  prev := Function.update l.prev link link
  next := Function.update l.next link link

def listIsEmpty (l : Links α) (link : α) : Bool := l.next link = link

/-- `__list_insert`, its four stores in the source's order. -/
def rawListInsert (l : Links α) (prev next node : α) : Links α :=
  let l := { l with prev := Function.update l.prev next node }
  let l := { l with next := Function.update l.next node next }
  let l := { l with prev := Function.update l.prev node prev }
  { l with next := Function.update l.next prev node }

def listInsertHead (l : Links α) (link node : α) : Links α :=
  rawListInsert l link (l.next link) node

def listInsertTail (l : Links α) (link node : α) : Links α :=
  rawListInsert l (l.prev link) link node

def listRemoveNode (l : Links α) (node : α) : Links α :=
  let l := { l with next := Function.update l.next (l.prev node) (l.next node) }
  { l with prev := Function.update l.prev (l.next node) (l.prev node) }

variable {l : Links α} {a b n x head : α} {pre post nodes : List α}

theorem rawListInsert_next (hxa : x ≠ a) (hxn : x ≠ n) :
    (rawListInsert l a b n).next x = l.next x := by
  simp [rawListInsert, hxa, hxn]

theorem rawListInsert_prev (hxb : x ≠ b) (hxn : x ≠ n) :
    (rawListInsert l a b n).prev x = l.prev x := by
  simp [rawListInsert, hxb, hxn]

theorem listRemoveNode_next (hx : x ≠ l.prev n) : (listRemoveNode l n).next x = l.next x := by
  simp [listRemoveNode, hx]

theorem listRemoveNode_prev (hnext : l.next n = b) (hx : x ≠ b) :
    (listRemoveNode l n).prev x = l.prev x := by
  have hread : Function.update l.next (l.prev n) (l.next n) n = b := by
    by_cases h : n = l.prev n
    · rw [← h, Function.update_self, hnext]
    · rw [Function.update_of_ne h, hnext]
  simp only [listRemoveNode, hread]
  exact Function.update_of_ne hx _ _

/-- A node linked to itself is in no list; removing it changes nothing. -/
theorem listRemoveNode_self (hnext : l.next n = n) (hprev : l.prev n = n) :
    listRemoveNode l n = l := by
  have hfirst : Function.update l.next n n = l.next := Function.update_eq_self_iff.mpr hnext.symm
  have hsecond : Function.update l.prev n n = l.prev := Function.update_eq_self_iff.mpr hprev.symm
  cases l
  simp_all [listRemoveNode]

/-- Inserting between two neighbours of a ring. -/
theorem chain_rawListInsert (hr : l.Ring head nodes) (hnodup : (head :: nodes).Nodup)
    (hn : n ∉ head :: nodes)
    (hsplit : head :: nodes ++ [head] = pre ++ a :: b :: post) :
    (rawListInsert l a b n).Chain (pre ++ a :: n :: b :: post) := by
  obtain ⟨hnext, hprev⟩ := ring_windows_nodup hnodup hsplit
  have hmem := mem_of_ring_window hsplit
  have hna : n ≠ a := fun h => hn (hmem n (by simp [h]))
  have hnb : n ≠ b := fun h => hn (hmem n (by simp [h]))
  have hchain : l.Chain (pre ++ a :: b :: post) := hsplit ▸ hr
  refine hchain.link (n := n) ⟨?_, ?_⟩ ⟨?_, ?_⟩ ?_ ?_
  · simp [rawListInsert]
  · simp [rawListInsert]
  · simp [rawListInsert, hna]
  · simp [rawListInsert, hnb.symm]
  · intro x hx
    rw [List.nodup_middle, List.nodup_cons] at hnext
    apply rawListInsert_next
    · rintro rfl
      exact hnext.1 hx
    · rintro rfl
      apply hn
      apply hmem
      rcases List.mem_append.mp hx with hx | hx
      · simp [hx]
      · have := List.dropLast_subset _ hx
        simp at this ⊢
        tauto
  · intro x hx
    rw [List.nodup_middle, List.nodup_cons] at hprev
    apply rawListInsert_prev
    · rintro rfl
      exact hprev.1 hx
    · rintro rfl
      apply hn
      apply hmem
      rcases List.mem_append.mp hx with hx | hx
      · have := List.mem_of_mem_tail hx
        simp at this ⊢
        tauto
      · simp [hx]

theorem ring_listInsertTail (hr : l.Ring head nodes) (hnodup : (head :: nodes).Nodup)
    (hn : n ∉ head :: nodes) : (listInsertTail l head n).Ring head (nodes ++ [n]) := by
  obtain ⟨pre, a, hlast⟩ := (List.eq_nil_or_concat (head :: nodes)).resolve_left (by simp)
  rw [List.concat_eq_append] at hlast
  have hsplit : head :: nodes ++ [head] = pre ++ a :: head :: [] := by
    rw [hlast]
    simp
  have hprev : l.prev head = a := (hr.linked hsplit).2
  have hchain := chain_rawListInsert hr hnodup hn hsplit
  unfold listInsertTail Links.Ring
  rw [hprev]
  have hshape : head :: (nodes ++ [n]) ++ [head] = pre ++ a :: n :: head :: [] := by
    rw [show head :: (nodes ++ [n]) ++ [head] = (head :: nodes) ++ [n, head] by simp, hlast]
    simp
  rwa [hshape]

/-- `list_insert_head` on any member of a ring, its head included, inserts
right after that member. -/
theorem ring_listInsertHead (hr : l.Ring head nodes) (hnodup : (head :: nodes).Nodup)
    (hn : n ∉ head :: nodes) (hsplit : head :: nodes = pre ++ a :: post) :
    (listInsertHead l a n).Chain (pre ++ a :: n :: post ++ [head]) := by
  obtain ⟨b, rest, hrest⟩ := List.exists_cons_of_ne_nil (l := post ++ [head]) (by simp)
  have hwhole : head :: nodes ++ [head] = pre ++ a :: b :: rest := by
    rw [hsplit, List.append_assoc, List.cons_append, hrest]
  have hnext : l.next a = b := (hr.linked hwhole).1
  have hchain := chain_rawListInsert hr hnodup hn hwhole
  unfold listInsertHead
  rw [hnext]
  rwa [List.append_assoc, List.cons_append, List.cons_append, hrest]

theorem ring_listRemoveNode (hr : l.Ring head (pre ++ n :: post))
    (hnodup : (head :: (pre ++ n :: post)).Nodup) :
    (listRemoveNode l n).Ring head (pre ++ post) := by
  obtain ⟨left, a, b, rest, hleft, hrest, hwhole, hafter⟩ := ring_around head n pre post
  have hprev : l.prev n = a := (hr.linked hwhole).2
  have hnext : l.next n = b := (hr.linked hafter).1
  obtain ⟨hwn, -⟩ := ring_windows_nodup hnodup hwhole
  obtain ⟨-, hwp⟩ := ring_windows_nodup hnodup hafter
  have han : n ≠ a := by
    rintro rfl
    rw [List.nodup_middle, List.nodup_cons] at hwn
    exact hwn.1 (by simp)
  have hshape : head :: (pre ++ post) ++ [head] = left ++ a :: b :: rest := by
    rw [show head :: (pre ++ post) ++ [head] = (head :: pre) ++ (post ++ [head]) by simp,
      hleft, hrest]
    simp
  have hchain : l.Chain (left ++ a :: n :: b :: rest) := hwhole ▸ hr
  unfold Links.Ring
  rw [hshape]
  refine hchain.unlink ⟨?_, ?_⟩ ?_ ?_
  · simp [listRemoveNode, hprev, hnext]
  · simp [listRemoveNode, hprev, hnext, Function.update_of_ne han]
  · intro x hx
    apply listRemoveNode_next
    rw [hprev]
    rintro rfl
    rw [List.nodup_middle, List.nodup_cons] at hwn
    apply hwn.1
    rcases List.mem_append.mp hx with hx | hx
    · simp [hx]
    · simp [List.dropLast_cons_of_ne_nil, hx]
  · intro x hx
    apply listRemoveNode_prev hnext
    rintro rfl
    rw [List.nodup_middle, List.nodup_cons] at hwp
    apply hwp.1
    rcases List.mem_append.mp hx with hx | hx
    · simp only [List.mem_append]
      left
      rw [List.tail_append_of_ne_nil (by simp)]
      simp [hx]
    · simp [hx]

theorem ring_listInit (l : Links α) (x : α) :
    (listInit l x).Ring x [] :=
  Links.ring_nil_iff.mpr ⟨by simp [listInit], by simp [listInit]⟩

theorem ring_listInit_of_ring {y : α} (x : α)
    (hr : l.Ring y []) : (listInit l x).Ring y [] := by
  by_cases hyx : y = x
  · subst hyx
    exact ring_listInit l y
  · obtain ⟨hnext, hprev⟩ := Links.ring_nil_iff.mp hr
    refine Links.ring_nil_iff.mpr ⟨?_, ?_⟩
    · simpa [listInit, Function.update_of_ne hyx] using hnext
    · simpa [listInit, Function.update_of_ne hyx] using hprev

/-! The same operations on a memory that holds many disjoint lists. -/

theorem listInsertHead_same (hr : l.Ring head nodes) (hx : x ∉ head :: nodes)
    (hxn : x ≠ n) : l.SameAt (listInsertHead l head n) x := by
  constructor
  · exact rawListInsert_next (fun h => hx (h ▸ List.mem_cons_self)) hxn
  · exact rawListInsert_prev (fun h => hx (h ▸ ring_next_mem hr)) hxn

theorem listInsertTail_same (hr : l.Ring head nodes) (hx : x ∉ head :: nodes)
    (hxn : x ≠ n) : l.SameAt (listInsertTail l head n) x := by
  constructor
  · exact rawListInsert_next (fun h => hx (h ▸ ring_prev_mem hr)) hxn
  · exact rawListInsert_prev (fun h => hx (h ▸ List.mem_cons_self)) hxn

theorem listRemoveNode_same (hr : l.Ring head nodes) (hn : n ∈ nodes)
    (hx : x ∉ head :: nodes) : l.SameAt (listRemoveNode l n) x := by
  obtain ⟨pre, post, hsplit⟩ := List.append_of_mem hn
  subst hsplit
  obtain ⟨a, ha, b, hb, hprev, hnext⟩ := ring_neighbours hr
  constructor
  · exact listRemoveNode_next fun h => hx (h ▸ hprev ▸ ha)
  · exact listRemoveNode_prev hnext fun h => hx (h ▸ hb)

section

variable {ι : Type} [DecidableEq ι] {heads : ι → α} {L : ι → List α} {i : ι}

theorem rings_listInsertHead (hl : DisjointRings l heads L) (i : ι) (hn : Unlinked heads L n) :
    DisjointRings (listInsertHead l (heads i) n) heads (Function.update L i (n :: L i)) := by
  apply hl.update
  · exact @ring_listInsertHead α _ l (heads i) n (heads i) [] (L i) (L i) (hl.ring i) (hl.nodup i)
      (hn i) rfl
  · obtain ⟨hhead, hnodes⟩ := List.nodup_cons.mp (hl.nodup i)
    obtain ⟨hne, hnew⟩ := not_or.mp fun h => hn i (List.mem_cons.mpr h)
    refine List.nodup_cons.mpr ⟨fun h => ?_, List.nodup_cons.mpr ⟨hnew, hnodes⟩⟩
    rcases List.mem_cons.mp h with h | h
    · exact hne h.symm
    · exact hhead h
  · intro x hx
    rcases List.mem_cons.mp hx with rfl | hx
    · exact .inr hn
    · exact .inl hx
  · intro j hji x hx
    exact listInsertHead_same (hl.ring i) (hl.disjoint hji hx) fun h => hn j (h ▸ hx)

theorem rings_listInsertTail (hl : DisjointRings l heads L) (i : ι) (hn : Unlinked heads L n) :
    DisjointRings (listInsertTail l (heads i) n) heads (Function.update L i (L i ++ [n])) := by
  apply hl.update
  · exact ring_listInsertTail (hl.ring i) (hl.nodup i) (hn i)
  · have hnodup : ([n] ++ heads i :: L i).Nodup := List.nodup_cons.mpr ⟨hn i, hl.nodup i⟩
    exact List.nodup_append_comm.mp hnodup
  · intro x hx
    rcases List.mem_append.mp hx with hx | hx
    · exact .inl hx
    · exact .inr (List.mem_singleton.mp hx ▸ hn)
  · intro j hji x hx
    exact listInsertTail_same (hl.ring i) (hl.disjoint hji hx) fun h => hn j (h ▸ hx)

theorem rings_listRemoveNode (hl : DisjointRings l heads L) (hn : n ∈ L i) :
    DisjointRings (listRemoveNode l n) heads (Function.update L i ((L i).erase n)) := by
  apply hl.update
  · obtain ⟨pre, post, hsplit⟩ := List.append_of_mem hn
    have hnodup := hl.nodup i
    have hring := hl.ring i
    rw [hsplit] at hnodup hring
    have hpre : n ∉ pre := by
      have hnodes := (List.nodup_cons.mp hnodup).2
      rw [List.nodup_middle, List.nodup_cons] at hnodes
      exact fun h => hnodes.1 (List.mem_append_left _ h)
    rw [hsplit, List.erase_append_right _ hpre, List.erase_cons_head]
    exact ring_listRemoveNode hring hnodup
  · exact (hl.nodup i).sublist (List.Sublist.cons_cons _ List.erase_sublist)
  · intro x hx
    exact .inl (List.mem_of_mem_erase hx)
  · intro j hji x hx
    exact listRemoveNode_same (hl.ring i) hn (hl.disjoint hji hx)

/-- The node that was removed is in no list. -/
theorem unlinked_removed (hl : DisjointRings l heads L) (hn : n ∈ L i) :
    Unlinked heads (Function.update L i ((L i).erase n)) n := by
  intro j hj
  obtain ⟨hhead, hnodes⟩ := List.nodup_cons.mp (hl.nodup i)
  by_cases hji : j = i
  · subst hji
    rw [Function.update_self] at hj
    rcases List.mem_cons.mp hj with rfl | hj
    · exact hhead hn
    · exact hnodes.not_mem_erase hj
  · rw [Function.update_of_ne hji] at hj
    exact hl.disjoint hji hj (List.mem_cons_of_mem _ hn)

end

/-! Typed nodes. -/

variable {H N : Type} [DecidableEq N] {links : Links (Cell H N)} {L : H → List N} {t : N}

/-- A node that is in no list and is linked to itself, as `list_init` leaves it. -/
structure Detached (links : Links (Cell H N)) (L : H → List N) (t : N) : Prop where
  notMem : ∀ h, t ∉ L h
  next : links.next (.node t) = .node t
  prev : links.prev (.node t) = .node t

/-- The lists after `t` has been taken out of wherever it was. -/
def without (L : H → List N) (t : N) (h : H) : List N := (L h).erase t

theorem without_of_notMem (ht : ∀ h, t ∉ L h) : without L t = L := by
  funext h
  exact List.erase_of_not_mem (ht h)

theorem notMem_without (hl : Lists links L) (h : H) : t ∉ without L t h :=
  (hl.nodup h).not_mem_erase

variable [DecidableEq H]

/-- The lists after `t` has been moved to the tail of the list of `h`. -/
def moved (L : H → List N) (t : N) (h : H) : H → List N :=
  Function.update (without L t) h (without L t h ++ [t])

theorem lists_listInit (hl : Lists links L) (ht : ∀ h, t ∉ L h) :
    Lists (listInit links (.node t)) L where
  ring h := by
    have hne : ∀ x ∈ Cell.head h :: (L h).map Cell.node, x ≠ Cell.node t := by
      rintro x hx rfl
      simp [ht h] at hx
    exact (hl.ring h).transport (fun x hx => Function.update_of_ne (hne x hx) _ _)
      (fun x hx => Function.update_of_ne (hne x hx) _ _)
  nodup := hl.nodup
  unique := hl.unique

/-- Initialising the head of an empty list changes no link. -/
theorem listInit_of_empty (hl : Lists links L) {h : H} (hempty : L h = []) :
    listInit links (.head h) = links := by
  have hring := hl.ring h
  rw [hempty, List.map_nil, Links.ring_nil_iff] at hring
  unfold listInit
  rw [Function.update_eq_self_iff.mpr hring.2.symm, Function.update_eq_self_iff.mpr hring.1.symm]

theorem detached_listInit (ht : ∀ h, t ∉ L h) : Detached (listInit links (.node t)) L t :=
  ⟨ht, by simp [listInit], by simp [listInit]⟩

theorem lists_listRemoveNode (hl : Lists links L) {h : H} (ht : t ∈ L h) :
    Lists (listRemoveNode links (.node t)) (without L t) := by
  have hremoved := rings_listRemoveNode hl.rings (show Cell.node t ∈ (L h).map Cell.node from
    List.mem_map_of_mem ht)
  apply DisjointRings.lists
  convert hremoved using 1
  funext g
  by_cases hgh : g = h
  · subst hgh
    rw [Function.update_self, without, List.map_erase node_injective]
  · rw [Function.update_of_ne hgh, without,
      List.erase_of_not_mem fun hmem => hgh (hl.unique hmem ht)]

theorem lists_listInsertTail (hl : Lists links L) (h : H) (ht : ∀ g, t ∉ L g) :
    Lists (listInsertTail links (.head h) (.node t)) (Function.update L h (L h ++ [t])) := by
  have hfresh : Unlinked Cell.head (fun h => (L h).map Cell.node) (Cell.node t) := by
    intro g hmem
    simp [ht g] at hmem
  have hinserted := rings_listInsertTail hl.rings h hfresh
  apply DisjointRings.lists
  convert hinserted using 1
  funext g
  by_cases hgh : g = h
  · subst hgh
    rw [Function.update_self, Function.update_self, List.map_append, List.map_singleton]
  · rw [Function.update_of_ne hgh, Function.update_of_ne hgh]

/-- Removing a node from wherever it is; the caller need not know where. -/
theorem lists_remove (hl : Lists links L) (ht : (∃ h, t ∈ L h) ∨ Detached links L t) :
    Lists (listRemoveNode links (.node t)) (without L t) := by
  rcases ht with ⟨h, ht⟩ | hd
  · exact lists_listRemoveNode hl ht
  · rw [listRemoveNode_self hd.next hd.prev, without_of_notMem hd.notMem]
    exact hl

/-- The kernel's way to move a thread: remove its node, insert it at a tail. -/
theorem lists_move (hl : Lists links L) (ht : (∃ h, t ∈ L h) ∨ Detached links L t) (h : H) :
    Lists (listInsertTail (listRemoveNode links (.node t)) (.head h) (.node t)) (moved L t h) :=
  lists_listInsertTail (lists_remove hl ht) h (notMem_without hl)

@[simp] theorem moved_self (h : H) : moved L t h h = without L t h ++ [t] :=
  Function.update_self ..

theorem mem_moved_self (L : H → List N) (t : N) (h : H) : t ∈ moved L t h h := by
  simp

theorem moved_of_ne {g h : H} (hne : g ≠ h) : moved L t h g = without L t g :=
  Function.update_of_ne hne ..

theorem mem_moved_of_ne {n : N} (hne : n ≠ t) (h g : H) : n ∈ moved L t h g ↔ n ∈ L g := by
  by_cases hgh : g = h
  · subst hgh
    simp [without, hne, List.mem_erase_of_ne hne]
  · rw [moved_of_ne hgh]
    exact List.mem_erase_of_ne hne

/-- `list_is_empty` on the head of a list. -/
theorem listIsEmpty_head (hl : Lists links L) (h : H) :
    listIsEmpty links (.head h) = (L h).isEmpty := by
  have hiff := (hl.ring h).next_head_eq_iff (head_notMem_map h (L h))
  simp only [listIsEmpty, hiff, List.map_eq_nil_iff]
  cases L h <;> simp

/-! `LIST_FOR_EACH_ENTRY_SAFE` reads the successor of the current node before
the body runs, so that the body may move that node to another list. -/

/-- One pass with the loop variables `pos` and `n`. -/
def forEachEntrySafe (links : σ → Links α) (list : α) (body : α → σ → Option σ) :
    Nat → α → α → σ → Option σ
  | 0, _, _, _ => none
  | fuel + 1, pos, n, s =>
      if pos = list then some s
      else do
        let s ← body pos s
        forEachEntrySafe links list body fuel n ((links s).next n) s

def listForEachEntrySafe (links : σ → Links α) (list : α) (body : α → σ → Option σ)
    (fuel : Nat) (s : σ) : Option σ :=
  let pos := (links s).next list
  forEachEntrySafe links list body fuel pos ((links s).next pos) s

/-- The loop visits the nodes that the list held at the start, once each and in
order. `inv rem s` says that the nodes `rem` are still to be visited in `s`. -/
theorem forEachEntrySafe_eq_foldlM (links : σ → Links α) (list : α) (body : α → σ → Option σ)
    (inv : List α → σ → Prop)
    (hchain : ∀ rem s, inv rem s → list ∉ rem ∧ (links s).Chain (rem ++ [list]))
    (hbody : ∀ x rem s s', inv (x :: rem) s → body x s = some s' → inv rem s')
    (nodes : List α) (s : σ) (fuel : Nat) (hinv : inv nodes s) (hfuel : nodes.length < fuel) :
    forEachEntrySafe links list body fuel (nodes.head?.getD list)
        ((links s).next (nodes.head?.getD list)) s =
      nodes.foldlM (fun s x => body x s) s := by
  induction nodes generalizing s fuel with
  | nil =>
    obtain ⟨fuel, rfl⟩ := Nat.exists_eq_add_of_lt hfuel
    simp [forEachEntrySafe]
  | cons x rem ih =>
    obtain ⟨fuel, rfl⟩ : ∃ k, fuel = k + 1 := ⟨fuel - 1, by simp at hfuel; omega⟩
    obtain ⟨hlist, hlinks⟩ := hchain _ _ hinv
    have hx : x ≠ list := fun h => hlist (by simp [h])
    have hnext : (links s).next x = rem.head?.getD list := by
      cases rem with
      | nil => exact (List.isChain_cons_cons.mp hlinks).1.1
      | cons y rest => exact (List.isChain_cons_cons.mp hlinks).1.1
    change forEachEntrySafe links list body (fuel + 1) x ((links s).next x) s = _
    rw [forEachEntrySafe, if_neg hx, List.foldlM_cons]
    cases hs : body x s with
    | none => rfl
    | some s' =>
      simp only [Option.bind_eq_bind, Option.bind_some, hnext]
      exact ih s' fuel (hbody x rem s s' hinv hs) (by simpa using hfuel)

end PosixRtos.Kernel.IntrusiveList
