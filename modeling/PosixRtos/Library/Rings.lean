import Mathlib.Data.List.Chain
import Mathlib.Data.List.Nodup

/-! Circular doubly linked lists. A memory of links gives each node its
predecessor and its successor; a ring is a head and the nodes that the links
visit, in order, before they return to the head. Edits are local: a chain of
links depends only on the successors of all its nodes but the last and on the
predecessors of all its nodes but the first. -/
namespace PosixRtos.Library.Rings

structure Links (α : Type) where
  prev : α → α
  next : α → α

def Links.Linked (l : Links α) (a b : α) : Prop := l.next a = b ∧ l.prev b = a

def Links.Chain (l : Links α) (nodes : List α) : Prop := nodes.IsChain l.Linked

def Links.Ring (l : Links α) (head : α) (nodes : List α) : Prop :=
  l.Chain (head :: nodes ++ [head])

variable {l l' : Links α} {a b n head : α} {pre post nodes : List α}

theorem Links.Chain.transport (hc : l.Chain nodes)
    (hnext : ∀ x ∈ nodes.dropLast, l'.next x = l.next x)
    (hprev : ∀ x ∈ nodes.tail, l'.prev x = l.prev x) : l'.Chain nodes := by
  induction nodes with
  | nil => exact .nil
  | cons x rest ih =>
    cases rest with
    | nil => exact .singleton x
    | cons y rest =>
      obtain ⟨hxy, hrest⟩ := List.isChain_cons_cons.mp hc
      refine List.isChain_cons_cons.mpr ⟨⟨?_, ?_⟩, ih hrest ?_ ?_⟩
      · rw [hnext x (by simp), hxy.1]
      · rw [hprev y (by simp), hxy.2]
      · exact fun z hz => hnext z (by simp [hz])
      · exact fun z hz => hprev z (List.mem_of_mem_tail hz)

/-- Put `n` between the neighbours `a` and `b`. -/
theorem Links.Chain.link (hc : l.Chain (pre ++ a :: b :: post))
    (han : l'.Linked a n) (hnb : l'.Linked n b)
    (hnext : ∀ x ∈ pre ++ (b :: post).dropLast, l'.next x = l.next x)
    (hprev : ∀ x ∈ (pre ++ [a]).tail ++ post, l'.prev x = l.prev x) :
    l'.Chain (pre ++ a :: n :: b :: post) := by
  obtain ⟨hpre, -, hpost⟩ := List.isChain_append_cons_cons.mp hc
  have hleft : l'.Chain (pre ++ [a]) := Links.Chain.transport hpre
    (fun x hx => hnext x (by simp at hx; simp [hx]))
    (fun x hx => hprev x (List.mem_append_left _ hx))
  have hright : l'.Chain (b :: post) := Links.Chain.transport hpost
    (fun x hx => hnext x (List.mem_append_right _ hx))
    (fun x hx => hprev x (List.mem_append_right _ hx))
  exact List.isChain_append_cons_cons.mpr
    ⟨hleft, han, List.isChain_cons_cons.mpr ⟨hnb, hright⟩⟩

/-- Take `n` out from between its neighbours `a` and `b`. -/
theorem Links.Chain.unlink (hc : l.Chain (pre ++ a :: n :: b :: post))
    (hab : l'.Linked a b)
    (hnext : ∀ x ∈ pre ++ (b :: post).dropLast, l'.next x = l.next x)
    (hprev : ∀ x ∈ (pre ++ [a]).tail ++ post, l'.prev x = l.prev x) :
    l'.Chain (pre ++ a :: b :: post) := by
  obtain ⟨hpre, -, hrest⟩ := List.isChain_append_cons_cons.mp hc
  obtain ⟨-, hpost⟩ := List.isChain_cons_cons.mp hrest
  have hleft : l'.Chain (pre ++ [a]) := Links.Chain.transport hpre
    (fun x hx => hnext x (by simp at hx; simp [hx]))
    (fun x hx => hprev x (List.mem_append_left _ hx))
  have hright : l'.Chain (b :: post) := Links.Chain.transport hpost
    (fun x hx => hnext x (List.mem_append_right _ hx))
    (fun x hx => hprev x (List.mem_append_right _ hx))
  exact List.isChain_append_cons_cons.mpr ⟨hleft, hab, hright⟩

theorem Links.Ring.transport (hr : l.Ring head nodes)
    (hnext : ∀ x ∈ head :: nodes, l'.next x = l.next x)
    (hprev : ∀ x ∈ head :: nodes, l'.prev x = l.prev x) : l'.Ring head nodes := by
  apply Links.Chain.transport hr
  · intro x hx
    rw [List.dropLast_concat] at hx
    exact hnext x hx
  · intro x hx
    apply hprev
    simp at hx ⊢
    exact hx.symm

theorem Links.ring_nil_iff : l.Ring head [] ↔ l.next head = head ∧ l.prev head = head := by
  simp [Links.Ring, Links.Chain, Links.Linked]

/-- Reading the head's successor finds the first node, or the head itself. -/
theorem Links.Ring.next_head (hr : l.Ring head nodes) :
    l.next head = nodes.head?.getD head := by
  cases nodes with
  | nil => exact (Links.ring_nil_iff.mp hr).1
  | cons x rest => exact (List.isChain_cons_cons.mp hr).1.1

theorem Links.Ring.next_head_eq_iff (hr : l.Ring head nodes) (hhead : head ∉ nodes) :
    l.next head = head ↔ nodes = [] := by
  rw [hr.next_head]
  cases nodes with
  | nil => simp
  | cons x rest =>
    simp only [List.head?_cons, Option.getD_some, reduceCtorEq, iff_false]
    rintro rfl
    exact hhead (List.mem_cons_self ..)

/-- The links between two neighbours of a ring. -/
theorem Links.Ring.linked (hr : l.Ring head nodes)
    (hsplit : head :: nodes ++ [head] = pre ++ a :: b :: post) : l.Linked a b := by
  unfold Links.Ring Links.Chain at hr
  rw [hsplit] at hr
  exact (List.isChain_append_cons_cons.mp hr).2.1

/-- A ring is nodup in both windows that its links look at. -/
theorem ring_windows_nodup (hnodup : (head :: nodes).Nodup)
    (hsplit : head :: nodes ++ [head] = pre ++ a :: b :: post) :
    (pre ++ a :: (b :: post).dropLast).Nodup ∧ ((pre ++ [a]).tail ++ b :: post).Nodup := by
  constructor
  · have hdrop := congrArg List.dropLast hsplit
    rw [List.dropLast_concat, List.dropLast_append_of_ne_nil (by simp),
      List.dropLast_cons_of_ne_nil (by simp)] at hdrop
    rwa [← hdrop]
  · have htail := congrArg List.tail hsplit
    rw [show pre ++ a :: b :: post = (pre ++ [a]) ++ b :: post by simp,
      List.tail_append_of_ne_nil (by simp)] at htail
    rw [List.tail_append_of_ne_nil (by simp), List.tail_cons] at htail
    rw [← htail]
    obtain ⟨hhead, hnodes⟩ := List.nodup_cons.mp hnodup
    exact List.nodup_append_comm.mp (List.nodup_cons.mpr ⟨hhead, hnodes⟩)

theorem mem_of_ring_window (hsplit : head :: nodes ++ [head] = pre ++ a :: b :: post) :
    ∀ y ∈ pre ++ a :: b :: post, y ∈ head :: nodes := by
  intro y hy
  rw [← hsplit] at hy
  simp at hy ⊢
  tauto

/-- Both windows of a ring at one of its members, and the neighbours they name. -/
theorem ring_around (head n : α) (pre post : List α) :
    ∃ left a b rest, head :: pre = left ++ [a] ∧ post ++ [head] = b :: rest ∧
      head :: (pre ++ n :: post) ++ [head] = left ++ a :: n :: b :: rest ∧
      head :: (pre ++ n :: post) ++ [head] = (left ++ [a]) ++ n :: b :: rest := by
  obtain ⟨left, a, hleft⟩ := (List.eq_nil_or_concat (head :: pre)).resolve_left (by simp)
  rw [List.concat_eq_append] at hleft
  obtain ⟨b, rest, hrest⟩ := List.exists_cons_of_ne_nil (l := post ++ [head]) (by simp)
  have hwhole : head :: (pre ++ n :: post) ++ [head] = (head :: pre) ++ n :: (post ++ [head]) := by
    simp
  rw [hleft, hrest] at hwhole
  exact ⟨left, a, b, rest, hleft, hrest, by rw [hwhole]; simp, hwhole⟩

/-- The neighbours of a member of a ring lie in the ring. -/
theorem ring_neighbours (hr : l.Ring head (pre ++ n :: post)) :
    ∃ a ∈ head :: (pre ++ n :: post), ∃ b ∈ head :: (pre ++ n :: post),
      l.prev n = a ∧ l.next n = b := by
  obtain ⟨left, a, b, rest, -, -, hbefore, hafter⟩ := ring_around head n pre post
  have hmem := mem_of_ring_window hbefore
  exact ⟨a, hmem a (by simp), b, hmem b (by simp), (hr.linked hbefore).2, (hr.linked hafter).1⟩

/-- The successor and the predecessor of a member, as the sequence has them. -/
theorem Links.Ring.next_member (hr : l.Ring head (pre ++ n :: post)) :
    l.next n = post.head?.getD head := by
  obtain ⟨left, a, b, rest, -, hrest, -, hafter⟩ := ring_around head n pre post
  rw [(hr.linked hafter).1]
  cases post with
  | nil => exact (List.cons.inj hrest).1.symm
  | cons x xs => exact (List.cons.inj hrest).1.symm

theorem Links.Ring.prev_member (hr : l.Ring head (pre ++ n :: post)) :
    l.prev n = pre.getLast?.getD head := by
  obtain ⟨left, a, b, rest, hleft, -, hbefore, -⟩ := ring_around head n pre post
  rw [(hr.linked hbefore).2]
  have hlast := congrArg List.getLast? hleft
  rw [List.getLast?_concat, List.getLast?_cons] at hlast
  exact (Option.some.inj hlast).symm

/-- The predecessor of the head lies in the ring. -/
theorem ring_prev_mem (hr : l.Ring head nodes) : l.prev head ∈ head :: nodes := by
  obtain ⟨left, a, hleft⟩ := (List.eq_nil_or_concat (head :: nodes)).resolve_left (by simp)
  rw [List.concat_eq_append] at hleft
  have hwhole : head :: nodes ++ [head] = left ++ a :: head :: [] := by
    rw [hleft]
    simp
  rw [(hr.linked hwhole).2]
  exact mem_of_ring_window hwhole a (by simp)

/-- The successor of the head lies in the ring. -/
theorem ring_next_mem (hr : l.Ring head nodes) :
    l.next head ∈ head :: nodes := by
  rw [hr.next_head]
  cases nodes with
  | nil => exact List.mem_cons_self
  | cons x rest => exact List.mem_cons_of_mem _ List.mem_cons_self

/-! Many rings in one memory. -/

section

variable {ι : Type} {heads : ι → α} {L : ι → List α} {i : ι} {xs : List α}

/-- Any number of disjoint rings in one memory. -/
structure DisjointRings (l : Links α) (heads : ι → α) (L : ι → List α) : Prop where
  ring : ∀ i, l.Ring (heads i) (L i)
  nodup : ∀ i, (heads i :: L i).Nodup
  disjoint : ∀ {i j}, i ≠ j → List.Disjoint (heads i :: L i) (heads j :: L j)

/-- A node that is in no ring. -/
def Unlinked (heads : ι → α) (L : ι → List α) (n : α) : Prop := ∀ i, n ∉ heads i :: L i

/-- Both links of `x` are the same. -/
def Links.SameAt (l l' : Links α) (x : α) : Prop := l'.next x = l.next x ∧ l'.prev x = l.prev x

/-- An edit of one ring, with nodes of its own and nodes from outside. -/
theorem DisjointRings.update [DecidableEq ι] (hl : DisjointRings l heads L)
    (hring : l'.Ring (heads i) xs) (hnodup : (heads i :: xs).Nodup)
    (hxs : ∀ x ∈ xs, x ∈ L i ∨ Unlinked heads L x)
    (hsame : ∀ j ≠ i, ∀ x ∈ heads j :: L j, l.SameAt l' x) :
    DisjointRings l' heads (Function.update L i xs) where
  ring j := by
    by_cases hji : j = i
    · subst hji
      rwa [Function.update_self]
    · rw [Function.update_of_ne hji]
      exact (hl.ring j).transport (fun x hx => (hsame j hji x hx).1)
        fun x hx => (hsame j hji x hx).2
  nodup j := by
    by_cases hji : j = i
    · subst hji
      rwa [Function.update_self]
    · rw [Function.update_of_ne hji]
      exact hl.nodup j
  disjoint := by
    -- the edited ring meets no other one
    have hone : ∀ j ≠ i, List.Disjoint (heads i :: xs) (heads j :: L j) := by
      intro j hji x hx hxj
      rcases List.mem_cons.mp hx with rfl | hx
      · exact hl.disjoint (Ne.symm hji) List.mem_cons_self hxj
      · rcases hxs x hx with hold | hnew
        · exact hl.disjoint (Ne.symm hji) (List.mem_cons_of_mem _ hold) hxj
        · exact hnew j hxj
    intro j k hjk
    by_cases hji : j = i
    · subst hji
      rw [Function.update_self, Function.update_of_ne (Ne.symm hjk)]
      exact hone k (Ne.symm hjk)
    · rw [Function.update_of_ne hji]
      by_cases hki : k = i
      · subst hki
        rw [Function.update_self]
        exact fun x hj hk => hone j hjk hk hj
      · rw [Function.update_of_ne hki]
        exact hl.disjoint hjk

end

/-! Rings of typed nodes: each head owns one ring, and a node lies in at most one of
them. -/

inductive Cell (H N : Type) where
  | head (h : H)
  | node (n : N)
deriving DecidableEq

variable {H N : Type}

def cells (L : H → List N) (h : H) : List (Cell H N) := .head h :: (L h).map .node

structure Lists (l : Links (Cell H N)) (L : H → List N) : Prop where
  ring : ∀ h, l.Ring (.head h) ((L h).map .node)
  nodup : ∀ h, (L h).Nodup
  unique : ∀ {g h n}, n ∈ L g → n ∈ L h → g = h

theorem node_injective : Function.Injective (Cell.node : N → Cell H N) := fun _ _ => Cell.node.inj

theorem head_notMem_map (h : H) (xs : List N) : Cell.head h ∉ xs.map (Cell.node (H := H)) := by
  simp

theorem cells_nodup {l : Links (Cell H N)} {L : H → List N} (hl : Lists l L) (h : H) :
    (cells L h).Nodup := by
  exact List.nodup_cons.mpr ⟨head_notMem_map h _, (hl.nodup h).map node_injective⟩

theorem cells_disjoint {l : Links (Cell H N)} {L : H → List N} (hl : Lists l L) {g h : H}
    (hne : g ≠ h) {x : Cell H N} (hg : x ∈ cells L g) : x ∉ cells L h := by
  intro hh
  cases x with
  | head k =>
    simp only [cells, List.mem_cons, Cell.head.injEq, List.mem_map, reduceCtorEq, and_false,
      exists_false, or_false] at hg hh
    exact hne (hg.symm.trans hh)
  | node n =>
    simp only [cells, List.mem_cons, reduceCtorEq, List.mem_map, Cell.node.injEq,
      exists_eq_right, false_or] at hg hh
    exact hne (hl.unique hg hh)

theorem Lists.rings {l : Links (Cell H N)} {L : H → List N} (hl : Lists l L) :
    DisjointRings l Cell.head fun h => (L h).map Cell.node where
  ring := hl.ring
  nodup := cells_nodup hl
  disjoint hne _ hg := cells_disjoint hl hne hg

theorem DisjointRings.lists {l : Links (Cell H N)} {L : H → List N}
    (hl : DisjointRings l Cell.head fun h => (L h).map Cell.node) : Lists l L where
  ring := hl.ring
  nodup h := (List.nodup_cons.mp (hl.nodup h)).2.of_map _
  unique := by
    intro g h n hg hh
    by_contra hne
    exact hl.disjoint hne (List.mem_cons_of_mem _ (List.mem_map_of_mem hg))
      (List.mem_cons_of_mem _ (List.mem_map_of_mem hh))

/-- The first node of a list, read through its head. -/
theorem Lists.next_head {l : Links (Cell H N)} {L : H → List N} (hl : Lists l L) (h : H) :
    l.next (.head h) = (L h).head?.elim (.head h) .node := by
  rw [(hl.ring h).next_head]
  cases L h <;> rfl

/-- The links from any member of a list on to its head. -/
theorem Lists.chain_suffix {l : Links (Cell H N)} {L : H → List N} (hl : Lists l L) {h : H}
    {pre post : List N} (hsplit : L h = pre ++ post) : l.Chain (post.map .node ++ [.head h]) := by
  have hring := hl.ring h
  rw [hsplit, List.map_append] at hring
  have hwhole : Cell.head h :: (pre.map Cell.node ++ post.map Cell.node) ++ [Cell.head h] =
      (Cell.head h :: pre.map Cell.node) ++ (post.map Cell.node ++ [Cell.head h]) := by
    simp
  unfold Links.Ring Links.Chain at hring
  rw [hwhole] at hring
  exact List.IsChain.right_of_append hring

/-- Two walks along the successors that stop at the same head are the same. -/
theorem walk_unique {l : Links (Cell H N)} {h : H} (a : Cell H N) (xs ys : List N)
    (hxs : (a :: (xs.map .node ++ [.head h])).IsChain fun a b => l.next a = b)
    (hys : (a :: (ys.map .node ++ [.head h])).IsChain fun a b => l.next a = b) : xs = ys := by
  induction xs generalizing a ys with
  | nil =>
    cases ys with
    | nil => rfl
    | cons y ys =>
      have hsame := hxs.rel.symm.trans hys.rel
      cases hsame
  | cons x xs ih =>
    cases ys with
    | nil =>
      have hsame := hxs.rel.symm.trans hys.rel
      cases hsame
    | cons y ys =>
      have hsame := hxs.rel.symm.trans hys.rel
      cases hsame
      rw [ih _ ys hxs.tail hys.tail]

/-- A list is what a walk from its head back to it visits. -/
theorem Lists.eq_of_walk {l : Links (Cell H N)} {L : H → List N} (hl : Lists l L) {h : H}
    {xs : List N} (hxs : (.head h :: (xs.map .node ++ [.head h])).IsChain fun a b => l.next a = b) :
    L h = xs := by
  refine walk_unique (.head h) (L h) xs ?_ hxs
  exact (hl.ring h).imp fun _ _ hlinked => hlinked.1

end PosixRtos.Library.Rings
