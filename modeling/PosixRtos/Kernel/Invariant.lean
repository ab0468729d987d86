import Mathlib.Tactic
import PosixRtos.Kernel.ReadyGroup
import PosixRtos.Kernel.Semaphore

/-! The representation invariant of the scheduler. `Inv k L` says that the links
of `k` hold the lists `L`, that the group word has a bit for every non-empty
ready list, that every created thread is in the list its status names, and that
ready lists are in the order of arrival. -/
namespace PosixRtos.Kernel

open PosixRtos.Library.Rings IntrusiveList

/-- The list that a status names for a thread of the given priority. -/
def Status.Names (status : Status) (prio : Priority) : Head → Prop
  | .ready p => (status = .ready ∨ status = .int) ∧ p = prio
  | .sleep => status = .sleep
  | .delete => status = .closed
  | .mutexWait _ => status = .suspend
  | .semWait _ => status = .suspend

/-- How many threads have been put at the tail of a ready list since `t` was. -/
def State.age (k : State) (t : Tid) : Nat := k.enqueued.idxOf t

/-- The invariant for all threads but `t`, which may be in any list, or in none,
but in no other ready list than its own. -/
structure InvExcept (k : State) (L : Head → List Tid) (t : Tid) : Prop where
  lists : Lists k.links L
  group : ∀ p : Priority, k.threadReadyGroup.getLsbD p = true ↔ L (.ready p) ≠ []
  created : ∀ {h u}, u ∈ L h → u < k.count
  aged : ∀ p, (L (.ready p)).Pairwise fun a b => k.age b < k.age a
  logged : ∀ u < k.count, u ≠ t → u ∈ k.enqueued
  bound : t < k.count
  linked : (∃ h, t ∈ L h) ∨ Detached k.links L t
  home : ∀ p, t ∈ L (.ready p) → p = (k.thread t).curPrio
  placed : ∀ u < k.count, u ≠ t →
    ∃ h, u ∈ L h ∧ (k.thread u).status.Names (k.thread u).curPrio h

structure Inv (k : State) (L : Head → List Tid) : Prop where
  lists : Lists k.links L
  group : ∀ p : Priority, k.threadReadyGroup.getLsbD p = true ↔ L (.ready p) ≠ []
  created : ∀ {h t}, t ∈ L h → t < k.count
  aged : ∀ p, (L (.ready p)).Pairwise fun a b => k.age b < k.age a
  logged : ∀ t < k.count, t ∈ k.enqueued
  placed : ∀ t < k.count, ∃ h, t ∈ L h ∧ (k.thread t).status.Names (k.thread t).curPrio h

variable {k k' k'' : State} {L : Head → List Tid} {t u : Tid} {h : Head} {status : Status}

/-- The two states agree on everything that the invariant reads. -/
structure SameQueues (k k' : State) : Prop where
  links : k'.links = k.links
  group : k'.threadReadyGroup = k.threadReadyGroup
  count : k'.count = k.count
  enqueued : k'.enqueued = k.enqueued
  status : ∀ t, (k'.thread t).status = (k.thread t).status
  prio : ∀ t, (k'.thread t).curPrio = (k.thread t).curPrio

theorem Inv.congr (hi : Inv k L) (hsame : SameQueues k k') : Inv k' L where
  lists := hsame.links ▸ hi.lists
  group := hsame.group ▸ hi.group
  created := hsame.count ▸ hi.created
  aged := by
    unfold State.age
    rw [hsame.enqueued]
    exact hi.aged
  logged := by
    rw [hsame.count, hsame.enqueued]
    exact hi.logged
  placed t ht := by
    rw [hsame.status, hsame.prio]
    exact hi.placed t (hsame.count ▸ ht)

/-- The invariant reads no mutex, no semaphore, and nothing of the processor. -/
theorem SameQueues.outside {tlinks : Links TNode} {current : Option Tid} {usage : Usage}
    {locked : BitVec 32} {ownThread : Nat → Option Tid} {sem : Nat → Sem} {cpu : Cpu} :
    SameQueues k { k with
      tlinks := tlinks
      currentThread := current
      usage := usage
      locked := locked
      ownThread := ownThread
      sem := sem
      cpu := cpu } :=
  ⟨rfl, rfl, rfl, rfl, fun _ => rfl, fun _ => rfl⟩

theorem SameQueues.trans (hkk : SameQueues k k') (hkk' : SameQueues k' k'') : SameQueues k k'' where
  links := hkk'.links.trans hkk.links
  group := hkk'.group.trans hkk.group
  count := hkk'.count.trans hkk.count
  enqueued := hkk'.enqueued.trans hkk.enqueued
  status t := (hkk'.status t).trans (hkk.status t)
  prio t := (hkk'.prio t).trans (hkk.prio t)

theorem SameQueues.runnable_iff (hsame : SameQueues k k') (t : Tid) :
    k'.Runnable t ↔ k.Runnable t := by
  unfold State.Runnable
  rw [hsame.status]

/-- Changing a thread's other fields keeps the queues. -/
theorem sameQueues_setThread (f : Thread → Thread) (hstatus : ∀ x, (f x).status = x.status)
    (hprio : ∀ x, (f x).curPrio = x.curPrio) : SameQueues k (k.setThread t f) where
  links := rfl
  group := rfl
  count := rfl
  enqueued := rfl
  status := k.setThread_field t f Thread.status hstatus
  prio := k.setThread_field t f Thread.curPrio hprio

theorem Inv.names_of_mem (hi : Inv k L) (ht : t ∈ L h) :
    (k.thread t).status.Names (k.thread t).curPrio h := by
  obtain ⟨g, hg, hn⟩ := hi.placed t (hi.created ht)
  rwa [hi.lists.unique ht hg]

theorem Inv.except (hi : Inv k L) (ht : t < k.count) : InvExcept k L t where
  lists := hi.lists
  group := hi.group
  created := hi.created
  aged := hi.aged
  logged u hu _ := hi.logged u hu
  bound := ht
  linked := .inl ((hi.placed t ht).imp fun _ hh => hh.1)
  home _ hp := (hi.names_of_mem hp).2
  placed u hu _ := hi.placed u hu

theorem Inv.runnable_iff (hi : Inv k L) (ht : t < k.count) :
    k.Runnable t ↔ t ∈ L (.ready (k.thread t).curPrio) := by
  constructor
  · intro hrun
    obtain ⟨h, hmem, hn⟩ := hi.placed t ht
    cases h with
    | ready p =>
      rw [← hn.2]
      exact hmem
    | _ => rcases hrun with hrun | hrun <;> simp [Status.Names, hrun] at hn
  · intro hmem
    exact (hi.names_of_mem hmem).1

theorem Inv.runnable_of_ready (hi : Inv k L) {p : Priority} (ht : t ∈ L (.ready p)) :
    k.Runnable t ∧ (k.thread t).curPrio = p :=
  ⟨(hi.names_of_mem ht).1, (hi.names_of_mem ht).2.symm⟩

/-! What the moves between lists do to the invariant. -/

private theorem InvExcept.placed_moved (hi : InvExcept k L t) (hu : u < k.count) (hne : u ≠ t)
    (g : Head) :
    ∃ h, u ∈ moved L t g h ∧ (k.thread u).status.Names (k.thread u).curPrio h := by
  obtain ⟨h, hmem, hn⟩ := hi.placed u hu hne
  exact ⟨h, (mem_moved_of_ne hne g h).mpr hmem, hn⟩

private theorem InvExcept.created_moved (hi : InvExcept k L t) (g : Head)
    (hu : u ∈ moved L t g h) : u < k.count := by
  by_cases hut : u = t
  · subst hut
    exact hi.bound
  · exact hi.created ((mem_moved_of_ne hut g h).mp hu)

/-- Moving a thread leaves every ready list but its own as it was. -/
private theorem InvExcept.without_ready (hi : InvExcept k L t) {p : Priority}
    (hp : p ≠ (k.thread t).curPrio) : without L t (.ready p) = L (.ready p) :=
  List.erase_of_not_mem fun hmem => hp (hi.home p hmem)

theorem age_enqueueReady_self : (k.enqueueReady t status).age t = 0 := List.idxOf_cons_self

theorem age_enqueueReady_of_ne (hut : u ≠ t) : (k.enqueueReady t status).age u = k.age u + 1 :=
  List.idxOf_cons_ne _ hut.symm

/-- The threads that stay grow older together. -/
private theorem InvExcept.aged_without (hi : InvExcept k L t) (status : Status) (p : Priority) :
    (without L t (.ready p)).Pairwise fun a b =>
      (k.enqueueReady t status).age b < (k.enqueueReady t status).age a := by
  refine ((hi.aged p).sublist (List.erase_sublist)).imp_of_mem ?_
  intro a b ha hb hab
  have hta : a ≠ t := fun h => notMem_without hi.lists _ (h ▸ ha)
  have htb : b ≠ t := fun h => notMem_without hi.lists _ (h ▸ hb)
  rw [age_enqueueReady_of_ne hta, age_enqueueReady_of_ne htb]
  omega

/-- A thread put at the tail of its ready list. -/
theorem InvExcept.enqueueReady (hi : InvExcept k L t) (hs : status = .ready ∨ status = .int) :
    Inv (k.enqueueReady t status) (moved L t (.ready (k.thread t).curPrio)) where
  lists := lists_move hi.lists hi.linked _
  created hu := hi.created_moved (k := k) _ hu
  aged p := by
    by_cases hp : p = (k.thread t).curPrio
    · subst hp
      rw [moved_self, List.pairwise_append]
      refine ⟨hi.aged_without status _, List.pairwise_singleton _ _, ?_⟩
      intro a ha b hb
      have hta : a ≠ t := fun h => notMem_without hi.lists _ (h ▸ ha)
      rw [List.mem_singleton.mp hb, age_enqueueReady_self, age_enqueueReady_of_ne hta]
      omega
    · rw [moved_of_ne (by simpa using hp)]
      exact hi.aged_without status p
  logged u hu := by
    by_cases hut : u = t
    · exact hut ▸ List.mem_cons_self
    · exact List.mem_cons_of_mem _ (hi.logged u hu hut)
  group p := by
    change (k.threadReadyGroup ||| (1#32 <<< (k.thread t).curPrio.val)).getLsbD p = true ↔ _
    rw [getLsbD_setBit, hi.group]
    by_cases hp : p = (k.thread t).curPrio
    · subst hp
      simp
    · rw [moved_of_ne (by simpa using hp), hi.without_ready hp]
      simp [hp]
  placed u hu := by
    by_cases hut : u = t
    · subst hut
      refine ⟨.ready (k.thread u).curPrio, by simp, ?_⟩
      simp [Status.Names, hs]
    · obtain ⟨h, hmem, hn⟩ := hi.placed_moved hu hut (.ready (k.thread t).curPrio)
      refine ⟨h, hmem, ?_⟩
      rwa [State.enqueueReady_thread, State.setStatus_of_ne k hut]

/-- The bit of a priority is cleared when the last thread leaves its list. -/
private theorem InvExcept.group_leaveReady (hi : InvExcept k L t) (p : Priority) :
    (k.leaveReady t).threadReadyGroup.getLsbD p = true ↔ without L t (.ready p) ≠ [] := by
  have hempty := listIsEmpty_head (lists_remove hi.lists hi.linked) (.ready (k.thread t).curPrio)
  change (if listIsEmpty (listRemoveNode k.links (.node t)) (.head (.ready (k.thread t).curPrio))
    then k.threadReadyGroup &&& ~~~(1#32 <<< (k.thread t).curPrio.val)
    else k.threadReadyGroup).getLsbD p = true ↔ _
  rw [hempty]
  by_cases hp : p = (k.thread t).curPrio
  · subst hp
    cases hcase : without L t (.ready (k.thread t).curPrio) with
    | nil =>
      simp only [List.isEmpty_nil, if_true]
      rw [getLsbD_clearBit]
      simp
    | cons x xs =>
      have hold : L (.ready (k.thread t).curPrio) ≠ [] := by
        intro hnil
        simp [without, hnil] at hcase
      simp only [List.isEmpty_cons, Bool.false_eq_true, if_false]
      exact ⟨fun _ => List.cons_ne_nil x xs, fun _ => (hi.group _).mpr hold⟩
  · rw [hi.without_ready hp]
    split
    · rw [getLsbD_clearBit, hi.group]
      simp [hp]
    · exact hi.group p

/-- A thread moved from wherever it is to the tail of a list that is not a
ready list: how `sleep`, `suspend` and `close` end. -/
theorem InvExcept.park (hi : InvExcept k L t) (hlog : t ∈ k.enqueued) (hready : ∀ p, h ≠ .ready p)
    (hn : status.Names (k.thread t).curPrio h) :
    Inv (((k.leaveReady t).insertTail h t).setStatus t status) (moved L t h) where
  lists := lists_move hi.lists hi.linked _
  created hu := hi.created_moved (k := k) _ hu
  aged p := by
    rw [moved_of_ne (hready p).symm]
    exact (hi.aged p).sublist List.erase_sublist
  logged u hu := by
    by_cases hut : u = t
    · exact hut ▸ hlog
    · exact hi.logged u hu hut
  group p := by
    rw [moved_of_ne (hready p).symm]
    exact hi.group_leaveReady p
  placed u hu := by
    by_cases hut : u = t
    · subst hut
      refine ⟨h, by simp, ?_⟩
      simpa using hn
    · obtain ⟨g, hmem, hg⟩ := hi.placed_moved hu hut h
      refine ⟨g, hmem, ?_⟩
      rwa [State.insertTail_leaveReady_thread, State.setStatus_of_ne k hut]

end PosixRtos.Kernel
