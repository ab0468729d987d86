import PosixRtos.Kernel.Machine

/-! What holds of the scheduler in every reachable state: its queues are a
faithful picture of the threads' statuses, and a switch picks the thread of the
highest priority that has waited longest. -/
namespace PosixRtos.Kernel

open PosixRtos.Library.Rings PosixRtos.Library.Runs IntrusiveList

variable {board : Board} {k k' : State} {L : Head → List Tid} {t u c : Tid}

/-! A machine to start from: the board of the discovery kit, cleared memory. -/

def discoveryBoard : Board := ⟨1, by decide⟩

def shenZhouBoard : Board := ⟨5, by decide⟩

def clearedThread : Thread := ⟨.user, .init, 0, 0, 0, 0, 0, 0, 0, 0, 0⟩

/-- Every list node and head is linked to itself. -/
def clearedState : State where
  links := ⟨id, id⟩
  tlinks := ⟨id, id⟩
  thread _ := clearedThread
  count := 0
  threadReadyGroup := 0
  currentThread := none
  usage := ⟨0, 0, 0, 0⟩
  locked := 0
  ownThread _ := none
  sem _ := ⟨1, 0⟩
  cpu := ⟨false, none, none, none, 0⟩
  enqueued := []

theorem clearedState_blank : Blank clearedState where
  count := rfl
  mutexFree _ := rfl
  mutexWait _ := Links.ring_nil_iff.mpr ⟨rfl, rfl⟩
  semWait _ := Links.ring_nil_iff.mpr ⟨rfl, rfl⟩

/-- The idle thread and two threads of the default priority and time slice. -/
def threeThreads : List Op :=
  [.create (some ⟨1, 1, 0, 0, 512⟩) ⟨true, 0x20000000⟩,
   .create none ⟨true, 0x20001000⟩,
   .create none ⟨true, 0x20002000⟩]

/-- The state after the given inputs. -/
def boot (inputs : List Op) : Option State :=
  runInputs (step discoveryBoard) anyStep inputs (schedInit discoveryBoard clearedState)

theorem reachable_boot {inputs : List Op} (hs : boot inputs = some k) :
    Reachable discoveryBoard k :=
  ⟨clearedState, clearedState_blank, .of_runInputs hs⟩

/-! The representation of the scheduler. -/

/-- The links of `k` hold the lists `L`; the group word tells which ready lists
are empty; each created thread's node occurs once, in the list its status names. -/
structure Represents (k : State) (L : Head → List Tid) : Prop where
  circular : ∀ h, k.links.Ring (.head h) ((L h).map .node)
  group : ∀ p : Priority,
    (k.threadReadyGroup.getLsbD p = true ↔ listIsEmpty k.links (.head (.ready p)) = false) ∧
      (k.threadReadyGroup.getLsbD p = true ↔ L (.ready p) ≠ [])
  created : ∀ h, ∀ t ∈ L h, t < k.count
  once : ∀ t < k.count, ∃ h, (L h).count t = 1 ∧ (∀ g, g ≠ h → t ∉ L g) ∧
    (k.thread t).status.Names (k.thread t).curPrio h

theorem Inv.represents (hi : Inv k L) : Represents k L where
  circular := hi.lists.ring
  group p := by
    refine ⟨?_, hi.group p⟩
    rw [hi.group p, listIsEmpty_head hi.lists]
    cases L (.ready p) <;> simp
  created _ _ ht := hi.created ht
  once t ht := by
    obtain ⟨h, hmem, hn⟩ := hi.placed t ht
    refine ⟨h, List.count_eq_one_of_mem (hi.lists.nodup h) hmem, ?_, hn⟩
    intro g hgh hmem'
    exact hgh (hi.lists.unique hmem' hmem)

/-- In every state of every run. The source does not define a switch without a runnable
thread, so no run has one; in all others the step is defined (`Reachable.switch_isSome`). -/
theorem reachable_represents (hr : Reachable board k) : ∃ L, Represents k L := by
  obtain ⟨L, hi, -⟩ := hr.inv
  exact ⟨L, hi.represents⟩

/-- One thread goes to sleep, the next one waits for a semaphore, and the third one
exits. -/
def everyStatus : List Op :=
  threeThreads ++ [.create none ⟨true, 0x20003000⟩, .start, .pendSV, .msleep 20, .pendSV,
    .semWait 0, .pendSV, .exit]

theorem booted_represents :
    ∃ k, boot everyStatus = some k ∧
      (List.range k.count).map (fun t => (k.thread t).status) =
        [.ready, .sleep, .suspend, .closed] ∧ ∃ L, Represents k L := by
  have hrun : (boot everyStatus).map (fun k =>
      (List.range k.count).map fun t => (k.thread t).status) =
        some [.ready, .sleep, .suspend, .closed] := by decide +kernel
  obtain ⟨k, hk, hstatus⟩ := Option.map_eq_some_iff.mp hrun
  exact ⟨k, hk, hstatus, reachable_represents (reachable_boot hk)⟩

/-! The choice of the next thread. -/

/-- `t` is runnable, no runnable thread has a higher priority, and among those of
its priority it was put at the tail of the ready list before all others. -/
structure RunsFirst (k : State) (t : Tid) : Prop where
  created : t < k.count
  runnable : k.Runnable t
  highest : ∀ u < k.count, k.Runnable u → (k.thread u).curPrio ≤ (k.thread t).curPrio
  enqueued : t ∈ k.enqueued
  longest : ∀ u < k.count, k.Runnable u → (k.thread u).curPrio = (k.thread t).curPrio → u ≠ t →
    k.age u < k.age t

theorem IsHighest.runsFirst (hi : Inv k L) (ht : IsHighest L t) : RunsFirst k t := by
  obtain ⟨hcreated, hrunnable⟩ := ht.runnable hi
  obtain ⟨p, rest, hlist, habove⟩ := ht
  have hmem : t ∈ L (.ready p) := by simp [hlist]
  have hprio := (hi.runnable_of_ready hmem).2
  refine ⟨hcreated, hrunnable, ?_, hi.logged t hcreated, ?_⟩
  · intro u hu hrun
    have humem := (hi.runnable_iff hu).mp hrun
    by_contra hlt
    rw [hprio, not_le] at hlt
    rw [habove _ hlt] at humem
    cases humem
  · intro u hu hrun heq hut
    have humem := (hi.runnable_iff hu).mp hrun
    rw [heq, hprio, hlist] at humem
    have haged := hi.aged p
    rw [hlist, List.pairwise_cons] at haged
    exact haged.1 u ((List.mem_cons.mp humem).resolve_left hut)

/-- With the scheduler started and some thread runnable, `sched_switch_thread`
is defined: it never takes a list head for a thread. -/
theorem Reachable.switch_isSome (hr : Reachable board k) (hc : k.currentThread = some c)
    (ht : t < k.count) (hrun : k.Runnable t) : ∃ k', schedSwitchThread k = some k' := by
  obtain ⟨L, hi, -⟩ := hr.inv
  have hmem := (hi.runnable_iff ht).mp hrun
  exact schedSwitchThread_isSome hi hc (List.ne_nil_of_mem hmem)

theorem schedSwitchThread_runsFirst (hr : Reachable board k) (hc : k.currentThread = some c)
    (ht : t < k.count) (hrun : k.Runnable t) :
    (∃ k' v, schedSwitchThread k = some k' ∧ k'.currentThread = some v ∧ RunsFirst k' v) ∧
      ∀ readGroup : BitVec 32, readGroup ≠ 0 →
        readGroup.getLsbD (schedGetHighestReadyGroup readGroup) = true ∧
          ∀ i, schedGetHighestReadyGroup readGroup < i → readGroup.getLsbD i = false := by
  refine ⟨?_, fun readGroup => schedGetHighestReadyGroup_spec⟩
  obtain ⟨L, hi, -⟩ := hr.inv
  obtain ⟨k', hs⟩ := hr.switch_isSome hc ht hrun
  obtain ⟨v, hv, hk'⟩ := schedSwitchThread_spec hi hs
  have hfirst := hv.runsFirst hi
  refine ⟨k', v, hs, by rw [hk'], ?_⟩
  rw [hk']
  exact ⟨hfirst.created, hfirst.runnable, hfirst.highest, hfirst.enqueued, hfirst.longest⟩

theorem booted_runsFirst :
    ∃ k, boot (threeThreads ++ [.start, .pendSV]) = some k ∧
      ∃ k' v, schedSwitchThread k = some k' ∧ k'.currentThread = some v ∧ RunsFirst k' v := by
  obtain ⟨k, hk⟩ := Option.isSome_iff_exists.mp
    (show (boot (threeThreads ++ [.start, .pendSV])).isSome = true by decide +kernel)
  have hfacts : (boot (threeThreads ++ [.start, .pendSV])).map (fun k =>
      (k.currentThread, k.count, (k.thread 1).status)) = some (some 1, 3, .ready) := by
    decide +kernel
  rw [hk] at hfacts
  simp only [Option.map_some, Option.some.injEq, Prod.mk.injEq] at hfacts
  obtain ⟨hcur, hcount, hstatus⟩ := hfacts
  have hlt : 1 < k.count := by
    rw [hcount]
    decide
  exact ⟨k, hk, (schedSwitchThread_runsFirst (reachable_boot hk) hcur hlt (.inl hstatus)).1⟩

end PosixRtos.Kernel
