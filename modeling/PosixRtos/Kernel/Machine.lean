import PosixRtos.Kernel.Sections

/-! The kernel as a state machine. An input is one interrupt-masked section of
the kernel, run by the current thread or by an interrupt, an execution of
`PendSV_Handler`, or a stretch of thread code that moves the stack pointer.
The machine does not ask who may call what: every order of inputs is a run. -/
namespace PosixRtos.Kernel

open PosixRtos.Library.Rings PosixRtos.Library.Runs IntrusiveList

inductive Op where
  | start
  | create (attr : Option PthreadAttr) (memory : CreateMemory)
  | yieldRequeue
  | switchThread
  | tick
  | msleep (milliseconds : BitVec 32)
  | mutexLock (mutex : Nat)
  | mutexUnlock (mutex : Nat)
  | semWait (sem : Nat)
  | semPost (sem : Nat)
  | reportSignal (thread : Tid)
  | intExit
  | exit
  | schedSuspend
  | schedRecover (state : BitVec 32)
  | pendSV
  | run (psp : BitVec 32)
deriving DecidableEq

/-- `rtos_run` starts the scheduler once; signals go to threads that exist. -/
def step (board : Board) (k : State) : Op → Option State
  | .start => if k.currentThread = none then schedStart k else none
  | .create attr memory => some (pthreadCreate k attr memory).1
  | .yieldRequeue => schedYieldRequeue k
  | .switchThread => schedSwitchThread k
  | .tick => schedProc board k
  | .msleep milliseconds => (msleep board k milliseconds).map Prod.fst
  | .mutexLock mutex => (rawPthreadMutexLock k mutex).map Prod.fst
  | .mutexUnlock mutex => (pthreadMutexUnlock k mutex).map Prod.fst
  | .semWait sem => (rawSemWait k sem).map Prod.fst
  | .semPost sem => (semPost k sem).map Prod.fst
  | .reportSignal thread =>
      if thread < k.count then (rawSchedReportSignal k thread).map Prod.fst else none
  | .intExit => rawPthreadIntExitEntry k
  | .exit => rawPthreadExitEntry k
  | .schedSuspend => some (Kernel.schedSuspend k).1
  | .schedRecover state => some (Kernel.schedRecover k state)
  | .pendSV => pendSVHandler k
  | .run psp => some { k with cpu := { k.cpu with psp := psp } }

/-- Memory before `sched_init`: no thread exists, and every mutex and every
semaphore is as its own initialisation leaves it. -/
structure Blank (k : State) : Prop where
  count : k.count = 0
  mutexFree : ∀ m, k.ownThread m = none
  mutexWait : ∀ m, k.links.Ring (.head (.mutexWait m)) []
  semWait : ∀ s, k.links.Ring (.head (.semWait s)) []

/-- Every state of every run of the kernel. -/
def Reachable (board : Board) (k : State) : Prop :=
  ∃ blank, Blank blank ∧ Reaches (step board) anyStep (schedInit board blank) k

variable {board : Board} {k k' k'' : State} {L L' : Head → List Tid} {t u : Tid} {h : Head}

/-! The state that `sched_init` leaves. -/

private theorem ring_foldl_listInit (ps : List Priority) (l : Links Node) (h : Head)
    (hh : l.Ring (.head h) [] ∨ ∃ p ∈ ps, h = .ready p) :
    (ps.foldl (fun l p => listInit l (.head (.ready p))) l).Ring (.head h) [] := by
  induction ps generalizing l with
  | nil => simpa using hh
  | cons p rest ih =>
    rw [List.foldl_cons]
    apply ih
    rcases hh with hr | ⟨q, hq, rfl⟩
    · exact .inl (ring_listInit_of_ring _ hr)
    · rcases List.mem_cons.mp hq with rfl | hq
      · exact .inl (ring_listInit _ _)
      · exact .inr ⟨q, hq, rfl⟩

theorem schedInit_inv (hb : Blank k) : Inv (schedInit board k) (fun _ => []) where
  lists := by
    refine ⟨fun h => ?_, fun _ => List.nodup_nil, fun hmem => by simp at hmem⟩
    change (schedInitLinks k.links).Ring (.head h) []
    have hfold := ring_foldl_listInit (List.finRange 32) k.links
    cases h with
    | ready p =>
      exact ring_listInit_of_ring _ (ring_listInit_of_ring _
        (hfold _ (.inr ⟨p, List.mem_finRange p, rfl⟩)))
    | sleep => exact ring_listInit_of_ring _ (ring_listInit _ _)
    | delete => exact ring_listInit _ _
    | mutexWait m =>
      exact ring_listInit_of_ring _ (ring_listInit_of_ring _ (hfold _ (.inl (hb.mutexWait m))))
    | semWait s =>
      exact ring_listInit_of_ring _ (ring_listInit_of_ring _ (hfold _ (.inl (hb.semWait s))))
  group p := by simp [schedInit]
  created hmem := by simp at hmem
  aged p := List.Pairwise.nil
  logged t ht := by
    change t < k.count at ht
    rw [hb.count] at ht
    omega
  placed t ht := by
    change t < k.count at ht
    rw [hb.count] at ht
    omega

/-! Every step keeps the invariant. -/

/-- The data of mutexes and semaphores is no part of what a section guarantees. -/
theorem Lawful.after {k₁ : State} (hlaw : Lawful k₁ k' L') (hcpu : k₁.cpu = k.cpu)
    (hcur : k₁.currentThread = k.currentThread) (hcount : k₁.count = k.count)
    (hthread : k₁.thread = k.thread) : Lawful k k' L' where
  inv := hlaw.inv
  current := hlaw.current
  cpu := hlaw.cpu.of_eq hcpu hcur
  count := hcount ▸ hlaw.count
  sp u hu := by
    rw [← hthread]
    exact hlaw.sp u (hcount ▸ hu)

/-- A section that touches no queue and no thread. -/
theorem Inv.lawful_of_same (hi : Inv k L) (hc : k.CurrentRunnable) (hsame : SameQueues k k')
    (hcpu : k'.cpu = k.cpu) (hcur : k'.currentThread = k.currentThread)
    (hthread : k'.thread = k.thread) : Lawful k k' L := by
  have hi' := hi.congr hsame
  have hc' := hc.of_same hsame hcur
  exact (Proceeds.refl hi' hc').lawful.after hcpu hcur hsame.count hthread

theorem wakeFirst_lawful (hi : Inv k L) (hc : k.CurrentRunnable)
    (hs : k.wakeFirst h = some k') : ∃ L', Lawful k k' L' := by
  obtain ⟨-, rfl⟩ | ⟨t, rest, -, -, -, hp⟩ := wakeFirst_spec hi hs
  · exact ⟨L, (Proceeds.refl hi hc).lawful⟩
  · exact ⟨_, hp.lawful⟩

theorem rawPthreadMutexLock_lawful (hi : Inv k L) (hc : k.CurrentRunnable) {mutex : Nat} {r : Int}
    (hs : rawPthreadMutexLock k mutex = some (k', r)) : ∃ L', Lawful k k' L' := by
  have hrefl := (Proceeds.refl hi hc).lawful
  rcases rawPthreadMutexLock_cases hs with ⟨-, rfl, -⟩ | ⟨t, ht, hcase⟩
  · exact ⟨L, hrefl⟩
  rcases hcase with ⟨-, -, rfl⟩ | ⟨-, -, rfl⟩ | ⟨owner, -, -, -, hsuspend⟩
  · exact ⟨L, hi.lawful_of_same hc .outside rfl rfl rfl⟩
  · exact ⟨L, hrefl⟩
  · exact ⟨_, (suspendOn_spec hi (hc t ht).1 (Head.isWait_mutexWait _) hsuspend).lawful⟩

theorem pthreadMutexUnlock_lawful (hi : Inv k L) (hc : k.CurrentRunnable) {mutex : Nat} {r : Int}
    (hs : pthreadMutexUnlock k mutex = some (k', r)) : ∃ L', Lawful k k' L' := by
  have hrefl := (Proceeds.refl hi hc).lawful
  rcases pthreadMutexUnlock_cases hs with ⟨-, rfl, -⟩ | ⟨t, ht, hcase⟩
  · exact ⟨L, hrefl⟩
  rcases hcase with ⟨-, -, hwake⟩ | ⟨-, -, rfl⟩
  · have hi' : Inv { k with ownThread := Function.update k.ownThread mutex none } L :=
      hi.congr .outside
    obtain ⟨L', hlaw⟩ := wakeFirst_lawful hi' hc hwake
    exact ⟨L', hlaw.after rfl rfl rfl rfl⟩
  · exact ⟨L, hrefl⟩

theorem setSemValue_inv (hi : Inv k L) (sem value : Nat) : Inv (k.setSemValue sem value) L :=
  hi.congr .outside

theorem rawSemWait_lawful (hi : Inv k L) (hc : k.CurrentRunnable) {sem : Nat} {r : Int}
    (hs : rawSemWait k sem = some (k', r)) : ∃ L', Lawful k k' L' := by
  rcases rawSemWait_cases hs with ⟨-, -, rfl⟩ | ⟨-, -, t, ht, hsuspend⟩
  · exact ⟨L, hi.lawful_of_same hc .outside rfl rfl rfl⟩
  · exact ⟨_, (suspendOn_spec hi (hc t ht).1 (Head.isWait_semWait _) hsuspend).lawful⟩

theorem semPost_lawful (hi : Inv k L) (hc : k.CurrentRunnable) {sem : Nat} {r : Int}
    (hs : semPost k sem = some (k', r)) : ∃ L', Lawful k k' L' := by
  rcases semPost_cases hs with ⟨-, -, rfl⟩ | ⟨-, -, hwake⟩
  · exact ⟨L, (Proceeds.refl hi hc).lawful⟩
  unfold State.incremented at hwake
  split at hwake
  · obtain ⟨L', hlaw⟩ := wakeFirst_lawful (setSemValue_inv hi _ _) hc hwake
    exact ⟨L', hlaw.after rfl rfl rfl rfl⟩
  · exact wakeFirst_lawful hi hc hwake

/-- The inputs that are masked sections which reach the processor only through
`hw_context_switch`. -/
def Op.IsSection : Op → Prop
  | .start | .intExit | .pendSV | .run _ => False
  | _ => True

theorem step_lawful {op : Op} (hop : op.IsSection) (hi : Inv k L) (hc : k.CurrentRunnable)
    (hs : step board k op = some k') : ∃ L', Lawful k k' L' := by
  cases op with
  | start | intExit | pendSV | run => exact hop.elim
  | create attr memory =>
    cases hs
    obtain ⟨L', hcreates⟩ := pthreadCreate_spec hi hc attr memory
    exact ⟨L', hcreates.toLawful⟩
  | yieldRequeue =>
    obtain ⟨t, -, -, hp⟩ := schedYieldRequeue_spec hi hc hs
    exact ⟨_, hp.lawful⟩
  | switchThread => exact ⟨L, ((Evolves.refl hi).proceeds_switch rfl rfl hs).lawful⟩
  | tick =>
    obtain ⟨L', hp, -⟩ := schedProc_spec hi hc hs
    exact ⟨L', hp.lawful⟩
  | msleep ms =>
    obtain ⟨⟨k₁, r⟩, hcall, rfl⟩ := Option.map_eq_some_iff.mp hs
    rcases msleep_spec hi hc hcall with ⟨-, rfl⟩ | ⟨t, -, hp⟩
    · exact ⟨L, (Proceeds.refl hi hc).lawful⟩
    · exact ⟨_, hp.lawful⟩
  | mutexLock mutex =>
    obtain ⟨⟨k₁, r⟩, hcall, rfl⟩ := Option.map_eq_some_iff.mp hs
    exact rawPthreadMutexLock_lawful hi hc hcall
  | mutexUnlock mutex =>
    obtain ⟨⟨k₁, r⟩, hcall, rfl⟩ := Option.map_eq_some_iff.mp hs
    exact pthreadMutexUnlock_lawful hi hc hcall
  | semWait sem =>
    obtain ⟨⟨k₁, r⟩, hcall, rfl⟩ := Option.map_eq_some_iff.mp hs
    exact rawSemWait_lawful hi hc hcall
  | semPost sem =>
    obtain ⟨⟨k₁, r⟩, hcall, rfl⟩ := Option.map_eq_some_iff.mp hs
    exact semPost_lawful hi hc hcall
  | reportSignal thread =>
    rw [step] at hs
    split at hs
    · next hlt =>
      obtain ⟨⟨k₁, r⟩, hcall, rfl⟩ := Option.map_eq_some_iff.mp hs
      rcases rawSchedReportSignal_spec hi hlt hcall with ⟨-, -, rfl⟩ | ⟨-, -, -, -, hp⟩
      · exact ⟨L, (Proceeds.refl hi hc).lawful⟩
      · exact ⟨_, hp.lawful⟩
    · cases hs
  | exit =>
    obtain ⟨t, -, hp⟩ := rawPthreadExitEntry_spec hi hc hs
    exact ⟨_, hp.lawful⟩
  | schedSuspend | schedRecover =>
    cases hs
    exact ⟨L, hi.lawful_of_same hc .outside rfl rfl rfl⟩

theorem schedStart_spec (hi : Inv k L) (hs : schedStart k = some k') :
    ∃ t, IsHighest L t ∧
      k' = { k with currentThread := some t, cpu := hwContextSwitchTo k.cpu (.sp t) } := by
  obtain ⟨t, ht, hs⟩ := Option.bind_eq_some_iff.mp hs
  cases hs
  exact ⟨t, hi.isHighest ht, rfl⟩

/-- `__pthread_int_exit_entry` turns `INT` into `READY`, which names the same list. -/
theorem rawPthreadIntExitEntry_inv (hi : Inv k L) (hc : k.CurrentRunnable)
    (hs : rawPthreadIntExitEntry k = some k') : Inv k' L ∧ k'.CurrentRunnable := by
  obtain ⟨t, ht, hs⟩ := Option.bind_eq_some_iff.mp hs
  cases hs
  have hself : t ∈ L (.ready (k.thread t).curPrio) := (hi.runnable_iff (hc t ht).1).mp (hc t ht).2
  refine ⟨⟨hi.lists, hi.group, hi.created, hi.aged, hi.logged, ?_⟩, ?_⟩
  · intro u hu
    by_cases hut : u = t
    · subst hut
      refine ⟨_, hself, ?_⟩
      simp [Status.Names]
    · rw [State.setStatus_of_ne k hut]
      exact hi.placed u hu
  · intro u hu
    have hut : u = t := by
      have : k.currentThread = some u := hu
      rw [ht] at this
      exact (Option.some.inj this).symm
    subst hut
    exact ⟨(hc u ht).1, .inl (State.setStatus_self ..)⟩

/-- A store into a saved stack pointer is invisible to the scheduler. -/
theorem sameQueues_storeSlot (k : State) (slot : Slot) (value : BitVec 32) :
    SameQueues k (k.storeSlot slot value) := by
  cases slot with
  | sp t =>
    exact sameQueues_setThread (fun thread => { thread with sp := value }) (fun _ => rfl)
      (fun _ => rfl)
  | intSp t =>
    exact sameQueues_setThread (fun thread => { thread with intSp := value }) (fun _ => rfl)
      (fun _ => rfl)

/-- The threads after `PendSV_Handler` has saved the live context. -/
def State.saveLive (k : State) : State :=
  match k.cpu.interruptFromThread with
  | none => k
  | some slot => k.storeSlot slot (k.cpu.psp - savedRegisterBytes)

theorem sameQueues_saveLive (k : State) : SameQueues k k.saveLive := by
  unfold State.saveLive
  split
  · exact .outside
  · exact sameQueues_storeSlot _ _ _

/-- Saving the live context writes into a thread and nowhere else. -/
theorem saveLive_eq (k : State) : k.saveLive = { k with thread := k.saveLive.thread } := by
  unfold State.saveLive
  split
  · rfl
  · next slot _ => cases slot <;> rfl

theorem saveLive_currentThread (k : State) : k.saveLive.currentThread = k.currentThread := by
  rw [saveLive_eq]

theorem pendSVHandler_spec (hs : pendSVHandler k = some k') :
    (k.cpu.threadSwitchInterruptFlag = false ∧ k' = k) ∨
      (k.cpu.threadSwitchInterruptFlag = true ∧
        ∃ slot, k.cpu.interruptToThread = some slot ∧
          k' = { k.saveLive with cpu := { k.cpu with
            threadSwitchInterruptFlag := false
            live := some slot
            psp := k.saveLive.loadSlot slot + savedRegisterBytes } }) := by
  obtain ⟨links, tlinks, thread, count, group, current, usage, locked, own, sem,
    ⟨flag, fromThread, toThread, live, psp⟩, enqueued⟩ := k
  cases flag with
  | false =>
    cases hs
    exact .inl ⟨rfl, rfl⟩
  | true =>
    refine .inr ⟨rfl, ?_⟩
    rcases fromThread with _ | a | a <;> rcases toThread with _ | b | b <;> cases hs <;>
      exact ⟨_, rfl, rfl⟩

/-- `PendSV_Handler` is invisible to the scheduler, the mutexes and the semaphores. -/
theorem pendSVHandler_same (hs : pendSVHandler k = some k') :
    SameQueues k k' ∧ k'.currentThread = k.currentThread ∧ k'.ownThread = k.ownThread ∧
      k'.sem = k.sem := by
  rcases pendSVHandler_spec hs with ⟨-, rfl⟩ | ⟨-, slot, -, rfl⟩
  · exact ⟨.outside, rfl, rfl, rfl⟩
  refine ⟨(sameQueues_saveLive k).trans .outside, ?_, ?_, ?_⟩ <;> rw [saveLive_eq]

theorem step_inv {op : Op} (hi : Inv k L) (hc : k.CurrentRunnable)
    (hs : step board k op = some k') : ∃ L', Inv k' L' ∧ k'.CurrentRunnable := by
  by_cases hop : op.IsSection
  · obtain ⟨L', hlaw⟩ := step_lawful hop hi hc hs
    exact ⟨L', hlaw.inv, hlaw.current⟩
  cases op with
  | start =>
    rw [step] at hs
    split at hs
    · obtain ⟨t, ht, rfl⟩ := schedStart_spec hi hs
      refine ⟨L, hi.congr .outside, fun u hu => ?_⟩
      cases hu
      have hrun := ht.runnable hi
      exact hrun
    · cases hs
  | intExit => exact ⟨L, rawPthreadIntExitEntry_inv hi hc hs⟩
  | pendSV =>
    obtain ⟨hsame, hcur, -, -⟩ := pendSVHandler_same hs
    exact ⟨L, hi.congr hsame, hc.of_same hsame hcur⟩
  | run psp =>
    cases hs
    exact ⟨L, hi.congr .outside, hc⟩
  | _ => exact absurd trivial hop

theorem Reachable.tail (hr : Reachable board k) (op : Op) (hs : step board k op = some k') :
    Reachable board k' := by
  obtain ⟨blank, hblank, hrun⟩ := hr
  exact ⟨blank, hblank, .tail hrun trivial hs⟩

theorem Reachable.inv (hr : Reachable board k) : ∃ L, Inv k L ∧ k.CurrentRunnable := by
  obtain ⟨blank, hblank, hrun⟩ := hr
  refine hrun.invariant (fun k => ∃ L, Inv k L ∧ k.CurrentRunnable)
    ⟨_, schedInit_inv hblank, fun t ht => by cases ht⟩ ?_
  rintro s op s' ⟨L, hi, hc⟩ - hs
  exact step_inv hi hc hs

end PosixRtos.Kernel
