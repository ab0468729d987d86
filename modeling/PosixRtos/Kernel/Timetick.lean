import PosixRtos.Kernel.Schedule
import PosixRtos.Kernel.Interference

/-! `os_timetick` of `time.c`, and what the scheduler lock means for it. A tick
has two ways into `sched_switch_thread`: `sched_proc`, which respects the lock,
and the post to the semaphore of the timer thread, which does not. -/
namespace PosixRtos.Kernel

open PosixRtos.Library.Rings PosixRtos.Library.Runs IntrusiveList

structure Clock where
  kernel : State
  localTime : BitVec 64

/-- `timerSem` is which semaphore `timer_sem` is. -/
def osTimetick (board : Board) (timerSem : Nat) (c : Clock) : Option Clock := do
  let k ← schedProc board c.kernel
  let (k, _) ← semPost k timerSem
  some { kernel := k, localTime := c.localTime + BitVec.ofNat 64 board.tickPeriod }

inductive ClockAct where
  | timetick
  | kernel (op : Op)
deriving DecidableEq

def clockStep (board : Board) (timerSem : Nat) (c : Clock) : ClockAct → Option Clock
  | .timetick => osTimetick board timerSem c
  | .kernel op => (step board c.kernel op).map fun k => { c with kernel := k }

/-- No `sched_recover`, and the current thread does not block. -/
def HeldLocked (c : Clock) : ClockAct → Prop
  | .timetick => True
  | .kernel (.schedRecover _) => False
  | .kernel op => ¬ c.kernel.Blocks op

instance (c : Clock) : ∀ act, Decidable (HeldLocked c act)
  | .timetick => .isTrue trivial
  | .kernel (.schedRecover _) => .isFalse not_false
  | .kernel .start | .kernel (.create _ _) | .kernel .yieldRequeue | .kernel .switchThread
  | .kernel .tick | .kernel (.msleep _) | .kernel (.mutexLock _) | .kernel (.mutexUnlock _)
  | .kernel (.semWait _) | .kernel (.semPost _) | .kernel (.reportSignal _) | .kernel .intExit
  | .kernel .exit | .kernel .schedSuspend | .kernel .pendSV | .kernel (.run _) =>
      inferInstanceAs (Decidable (¬ _))

/-- The post changes nothing, or wakes a thread that does not come before the
current one. -/
def State.TickKeepsCurrent (k : State) (timerSem : Nat) : Prop :=
  semValueMax ≤ (k.sem timerSem).value ∨ k.headEntry (.semWait timerSem) = none ∨
    ∃ t c, k.headEntry (.semWait timerSem) = some t ∧ k.currentThread = some c ∧
      k.highestReadyThread = some c ∧ (k.thread t).curPrio ≤ (k.thread c).curPrio

variable {board : Board} {timerSem : Nat} {k k' k₀ : State} {c c' : Clock}
  {L : Head → List Tid} {t u : Tid} {h : Head} {op : Op}

/-! Only `sched_suspend` and `sched_recover` write the lock. -/

theorem schedSwitchThread_locked (hs : schedSwitchThread k = some k') : k'.locked = k.locked := by
  unfold schedSwitchThread at hs
  obtain ⟨toThread, -, hs⟩ := Option.bind_eq_some_iff.mp hs
  obtain ⟨fromThread, -, hs⟩ := Option.bind_eq_some_iff.mp hs
  split at hs
  · cases hs
    rfl
  · cases hs
    rfl

theorem wakeFirst_locked (hs : k.wakeFirst h = some k') : k'.locked = k.locked := by
  unfold State.wakeFirst at hs
  split at hs
  · cases hs
    rfl
  · exact schedSwitchThread_locked (k := schedSetThreadReady k _) hs

theorem suspendOn_locked (hs : k.suspendOn t h = some k') : k'.locked = k.locked :=
  schedSwitchThread_locked (k := (schedSetThreadSuspend k t).insertTail h t) hs

theorem semPost_locked {sem : Nat} {r : Int} (hs : semPost k sem = some (k', r)) :
    k'.locked = k.locked := by
  rcases semPost_cases hs with ⟨-, -, rfl⟩ | ⟨-, -, hwake⟩
  · rfl
  · rw [wakeFirst_locked hwake]
    unfold State.incremented
    split <;> rfl

theorem pthreadCreate_locked (attr : Option PthreadAttr) (memory : CreateMemory) :
    (pthreadCreate k attr memory).1.locked = k.locked := by
  unfold pthreadCreate
  split
  · rfl
  split
  · rfl
  next k₁ t hcreate =>
  unfold rawPthreadCreate at hcreate
  dsimp only at hcreate
  split at hcreate
  · cases hcreate
  obtain ⟨type, -, hcreate⟩ := Option.bind_eq_some_iff.mp hcreate
  obtain ⟨prio, -, hcreate⟩ := Option.bind_eq_some_iff.mp hcreate
  cases hcreate
  rfl

theorem step_locked (hlocked : k.locked = schedIsLocked)
    (hrecover : ∀ state, op ≠ .schedRecover state) (hs : step board k op = some k') :
    k'.locked = schedIsLocked := by
  cases op with
  | start =>
    rw [step] at hs
    split at hs
    · obtain ⟨t, -, hs⟩ := Option.bind_eq_some_iff.mp hs
      cases hs
      exact hlocked
    · cases hs
  | create attr memory =>
    cases hs
    rw [pthreadCreate_locked, hlocked]
  | yieldRequeue =>
    obtain ⟨t, -, hs⟩ := Option.bind_eq_some_iff.mp hs
    cases hs
    exact hlocked
  | switchThread => rw [schedSwitchThread_locked hs, hlocked]
  | tick =>
    rw [step, schedProc, if_pos hlocked] at hs
    cases hs
    exact hlocked
  | msleep ms =>
    obtain ⟨⟨k₁, r⟩, hcall, rfl⟩ := Option.map_eq_some_iff.mp hs
    unfold msleep at hcall
    split at hcall
    · cases hcall
      exact hlocked
    · next t _ =>
      obtain ⟨k₂, hswitch, hcall⟩ := Option.bind_eq_some_iff.mp hcall
      cases hcall
      exact (schedSwitchThread_locked hswitch).trans hlocked
  | mutexLock mutex =>
    obtain ⟨⟨k₁, r⟩, hcall, rfl⟩ := Option.map_eq_some_iff.mp hs
    rcases rawPthreadMutexLock_cases hcall with ⟨-, rfl, -⟩ | ⟨t, -, hcase⟩
    · exact hlocked
    rcases hcase with ⟨-, -, rfl⟩ | ⟨-, -, rfl⟩ | ⟨owner, -, -, -, hsuspend⟩
    · exact hlocked
    · exact hlocked
    · exact (suspendOn_locked hsuspend).trans hlocked
  | mutexUnlock mutex =>
    obtain ⟨⟨k₁, r⟩, hcall, rfl⟩ := Option.map_eq_some_iff.mp hs
    rcases pthreadMutexUnlock_cases hcall with ⟨-, rfl, -⟩ | ⟨t, -, hcase⟩
    · exact hlocked
    rcases hcase with ⟨-, -, hwake⟩ | ⟨-, -, rfl⟩
    · exact (wakeFirst_locked hwake).trans hlocked
    · exact hlocked
  | semWait sem =>
    obtain ⟨⟨k₁, r⟩, hcall, rfl⟩ := Option.map_eq_some_iff.mp hs
    rcases rawSemWait_cases hcall with ⟨-, -, rfl⟩ | ⟨-, -, t, -, hsuspend⟩
    · exact hlocked
    · exact (suspendOn_locked hsuspend).trans hlocked
  | semPost sem =>
    obtain ⟨⟨k₁, r⟩, hcall, rfl⟩ := Option.map_eq_some_iff.mp hs
    exact (semPost_locked hcall).trans hlocked
  | reportSignal thread =>
    rw [step] at hs
    split at hs
    · obtain ⟨⟨k₁, r⟩, hcall, rfl⟩ := Option.map_eq_some_iff.mp hs
      unfold rawSchedReportSignal at hcall
      split at hcall
      · cases hcall
        exact hlocked
      · obtain ⟨k₂, hswitch, hcall⟩ := Option.bind_eq_some_iff.mp hcall
        cases hcall
        exact (schedSwitchThread_locked hswitch).trans hlocked
    · cases hs
  | intExit =>
    obtain ⟨t, -, hs⟩ := Option.bind_eq_some_iff.mp hs
    cases hs
    exact hlocked
  | exit =>
    obtain ⟨t, -, hs⟩ := Option.bind_eq_some_iff.mp hs
    exact (schedSwitchThread_locked hs).trans hlocked
  | schedSuspend =>
    cases hs
    rfl
  | schedRecover state => exact absurd rfl (hrecover state)
  | pendSV =>
    rcases pendSVHandler_spec hs with ⟨-, rfl⟩ | ⟨-, slot, -, rfl⟩
    · exact hlocked
    · rw [saveLive_eq]
      exact hlocked
  | run psp =>
    cases hs
    exact hlocked

/-! When the thread that a post wakes comes before the current one. -/

theorem IsHighest.unique (ht : IsHighest L t) (hu : IsHighest L u) : t = u := by
  obtain ⟨p, ts, hts, htop⟩ := ht
  obtain ⟨q, us, hus, hutop⟩ := hu
  rcases lt_trichotomy p q with hlt | rfl | hlt
  · rw [htop q hlt] at hus
    cases hus
  · rw [hts] at hus
    exact (List.cons.inj hus).1
  · rw [hutop p hlt] at hts
    cases hts

theorem Inv.highest_iff (hi : Inv k L) : k.highestReadyThread = some t ↔ IsHighest L t := by
  constructor
  · exact hi.isHighest
  · intro ht
    obtain ⟨p, rest, hlist, -⟩ := id ht
    obtain ⟨u, hu⟩ := hi.exists_highest (p := p) (by simp [hlist])
    rw [hu, (hi.isHighest hu).unique ht]

/-- A thread that comes from a wait list is added at the tail of its ready list. -/
theorem moved_ready_of_wait (hl : Lists k.links L) (hw : h.IsWait) (ht : t ∈ L h) (p q : Priority) :
    moved L t (.ready p) (.ready q) = L (.ready q) ++ if q = p then [t] else [] := by
  have hkeep : without L t (.ready q) = L (.ready q) :=
    List.erase_of_not_mem fun hmem => hw.ne_ready q (hl.unique ht hmem)
  by_cases hqp : q = p
  · subst hqp
    rw [moved_self, hkeep, if_pos rfl]
  · rw [moved_of_ne (by simpa using hqp), hkeep, if_neg hqp, List.append_nil]

/-- `t`, of priority `p`, has joined the ready lists; `u` is first if it was
before, and `p` is not above its own priority `q`. -/
theorem isHighest_woken_iff (hl : Lists k.links L) (hw : h.IsWait) (ht : t ∈ L h) {p q : Priority}
    (hu : u ∈ L (.ready q)) : IsHighest (moved L t (.ready p)) u ↔ IsHighest L u ∧ p ≤ q := by
  have hlists := moved_ready_of_wait hl hw ht p
  have hut : u ≠ t := by
    rintro rfl
    exact hw.ne_ready q (hl.unique ht hu)
  constructor
  · rintro ⟨q', rest, hlist, htop⟩
    rw [hlists] at hlist
    -- the list is not just `t`, so its first member was there before
    obtain ⟨xs, hxs⟩ : ∃ xs, L (.ready q') = u :: xs := by
      cases hold : L (.ready q') with
      | nil =>
        rw [hold] at hlist
        split at hlist
        · exact absurd (List.cons.inj hlist).1.symm hut
        · cases hlist
      | cons x xs =>
        rw [hold] at hlist
        exact ⟨xs, by rw [(List.cons.inj hlist).1]⟩
    have hq : q' = q := by
      have hmem : u ∈ L (.ready q') := by simp [hxs]
      simpa using hl.unique hmem hu
    subst hq
    refine ⟨⟨q', xs, hxs, ?_⟩, ?_⟩
    · intro r hr
      have habove := htop r hr
      rw [hlists] at habove
      exact (List.append_eq_nil_iff.mp habove).1
    · by_contra hlt
      have habove := htop p (not_le.mp hlt)
      rw [hlists, if_pos rfl] at habove
      simp at habove
  · rintro ⟨⟨q', xs, hxs, htop⟩, hle⟩
    have hq : q' = q := by
      have hmem : u ∈ L (.ready q') := by simp [hxs]
      simpa using hl.unique hmem hu
    subst hq
    refine ⟨q', xs ++ (if q' = p then [t] else []), by rw [hlists, hxs]; rfl, ?_⟩
    intro r hr
    rw [hlists, htop r hr, if_neg (hle.trans_lt hr).ne']
    rfl

theorem wakeFirst_current_iff (hi : Inv k L) (hc : k.CurrentRunnable) (hw : h.IsWait)
    (hs : k.wakeFirst h = some k') :
    k'.currentThread = k.currentThread ↔ k.headEntry h = none ∨
      ∃ t c, k.headEntry h = some t ∧ k.currentThread = some c ∧ k.highestReadyThread = some c ∧
        (k.thread t).curPrio ≤ (k.thread c).curPrio := by
  unfold State.wakeFirst at hs
  cases hentry : k.headEntry h with
  | none =>
    rw [hentry] at hs
    cases hs
    simp
  | some t =>
    rw [hentry] at hs
    have ht : t ∈ L h := by
      rw [State.headEntry_eq hi.lists] at hentry
      exact List.mem_of_head? hentry
    have hwake : Evolves k L (k.enqueueReady t .ready) _ :=
      .enqueueReady hi (hi.created ht) (.inl rfl)
    obtain ⟨v, hv, hk'⟩ := schedSwitchThread_spec hwake.inv hs
    have hcur' : k'.currentThread = some v := by rw [hk']
    obtain ⟨c, hcur⟩ : ∃ c, k.currentThread = some c := by
      obtain ⟨_, -, hs⟩ := Option.bind_eq_some_iff.mp hs
      obtain ⟨c, hcur, -⟩ := Option.bind_eq_some_iff.mp hs
      exact ⟨c, hcur⟩
    have hready := (hi.runnable_iff (hc c hcur).1).mp (hc c hcur).2
    have hiff := isHighest_woken_iff hi.lists hw ht (p := (k.thread t).curPrio) hready
    rw [hcur', hcur]
    constructor
    · intro heq
      cases heq
      obtain ⟨hhigh, hle⟩ := hiff.mp hv
      exact .inr ⟨t, v, rfl, rfl, hi.highest_iff.mpr hhigh, hle⟩
    · rintro (hnone | ⟨t', c', ht', hc', hhigh, hle⟩)
      · cases hnone
      · cases ht'
        cases hc'
        exact congrArg some (hv.unique (hiff.mpr ⟨hi.highest_iff.mp hhigh, hle⟩))

theorem semPost_current_iff (hi : Inv k L) (hc : k.CurrentRunnable) {r : Int}
    (hs : semPost k timerSem = some (k', r)) :
    k'.currentThread = k.currentThread ↔ k.TickKeepsCurrent timerSem := by
  rcases semPost_cases hs with ⟨hfull, -, rfl⟩ | ⟨hfull, -, hwake⟩
  · simp [State.TickKeepsCurrent, hfull]
  have hpost : k'.currentThread = k.currentThread ↔ k.headEntry (.semWait timerSem) = none ∨
      ∃ t c, k.headEntry (.semWait timerSem) = some t ∧ k.currentThread = some c ∧
        k.highestReadyThread = some c ∧ (k.thread t).curPrio ≤ (k.thread c).curPrio := by
    unfold State.incremented at hwake
    split at hwake
    · have hi' : Inv (k.setSemValue timerSem ((k.sem timerSem).value + 1)) L :=
        setSemValue_inv hi _ _
      have hiff := wakeFirst_current_iff hi' hc (Head.isWait_semWait timerSem) hwake
      exact hiff
    · exact wakeFirst_current_iff hi hc (Head.isWait_semWait timerSem) hwake
  rw [hpost, State.TickKeepsCurrent]
  simp [not_le.mpr hfull]

/-- A tick under the lock is the post alone. -/
theorem osTimetick_locked (hlocked : c.kernel.locked = schedIsLocked)
    (hs : osTimetick board timerSem c = some c') :
    ∃ r, semPost c.kernel timerSem = some (c'.kernel, r) := by
  obtain ⟨k, hproc, hs⟩ := Option.bind_eq_some_iff.mp hs
  rw [schedProc, if_pos hlocked] at hproc
  cases hproc
  obtain ⟨⟨k, r⟩, hpost, hs⟩ := Option.bind_eq_some_iff.mp hs
  cases hs
  exact ⟨r, hpost⟩

theorem osTimetick_steps (hr : Reachable board c.kernel)
    (hs : osTimetick board timerSem c = some c') : Reachable board c'.kernel := by
  obtain ⟨k, hproc, hs⟩ := Option.bind_eq_some_iff.mp hs
  obtain ⟨⟨k', r⟩, hpost, hs⟩ := Option.bind_eq_some_iff.mp hs
  cases hs
  have htick : Reachable board k := hr.tail .tick hproc
  refine htick.tail (.semPost timerSem) ?_
  rw [step, hpost, Option.map_some]

theorem HeldLocked.step (hr : Reachable board c.kernel) (hlocked : c.kernel.locked = schedIsLocked)
    {act : ClockAct} (hok : HeldLocked c act) (hs : clockStep board timerSem c act = some c') :
    Reachable board c'.kernel ∧ c'.kernel.locked = schedIsLocked := by
  cases act with
  | timetick =>
    obtain ⟨r, hpost⟩ := osTimetick_locked hlocked hs
    exact ⟨osTimetick_steps hr hs, (semPost_locked hpost).trans hlocked⟩
  | kernel op =>
    obtain ⟨k, hk, rfl⟩ := Option.map_eq_some_iff.mp hs
    refine ⟨hr.tail op hk, step_locked hlocked ?_ hk⟩
    rintro state rfl
    exact hok

/-- After `sched_suspend`, until `sched_recover` or a blocking call: a tick keeps
the current thread exactly if nobody waits for `timer_sem`, or the first waiter
has no higher priority than the current thread, which heads the ready lists. -/
theorem locked_timetick_current (time : BitVec 64) (hr : Reachable board k₀)
    (hrun : Reaches (clockStep board timerSem) HeldLocked ⟨(schedSuspend k₀).1, time⟩ c)
    (hs : osTimetick board timerSem c = some c') :
    c'.kernel.currentThread = c.kernel.currentThread ↔ c.kernel.TickKeepsCurrent timerSem := by
  have hkept : Reachable board c.kernel ∧ c.kernel.locked = schedIsLocked := by
    refine hrun.invariant (fun c => Reachable board c.kernel ∧ c.kernel.locked = schedIsLocked)
      ⟨hr.tail .schedSuspend rfl, rfl⟩ ?_
    rintro s act s' ⟨hreach, hlocked⟩ hok hstep
    exact hok.step hreach hlocked hstep
  obtain ⟨hreach, hlocked⟩ := hkept
  obtain ⟨L, hi, hc⟩ := hreach.inv
  obtain ⟨r, hpost⟩ := osTimetick_locked hlocked hs
  exact semPost_current_iff hi hc hpost

/-- The idle thread, a user thread and the timer thread, which `timer_init`
creates with the highest priority. -/
def timerThreads : List Op :=
  [.create (some ⟨1, 1, 0, 0, 512⟩) ⟨true, 0x20000000⟩,
   .create none ⟨true, 0x20001000⟩,
   .create (some ⟨2, 1, 31, 0, 512⟩) ⟨true, 0x20002000⟩]

/-- The machine after the inputs, with the scheduler locked, before and after a tick. -/
def lockedTick (inputs : List Op) : Option (State × Clock × Clock) := do
  let k ← boot inputs
  let c : Clock := ⟨(schedSuspend k).1, 0⟩
  let c' ← osTimetick discoveryBoard 0 c
  some (k, c, c')

private theorem lockedTick_spec {inputs : List Op} (h : lockedTick inputs = some (k, c, c')) :
    Reachable discoveryBoard k ∧ c = ⟨(schedSuspend k).1, 0⟩ ∧
      osTimetick discoveryBoard 0 c = some c' := by
  simp only [lockedTick, Option.bind_eq_bind, Option.bind_eq_some_iff, Option.some.injEq] at h
  obtain ⟨k₁, hboot, c₁, htick, heq⟩ := h
  cases heq
  exact ⟨reachable_boot hboot, rfl, htick⟩

/-- Thread 1 waits for the semaphore, and thread 2, of the same priority, runs. -/
theorem equal_priority_keeps_current :
    ∃ k c c', lockedTick (threeThreads ++ [.start, .semWait 0]) = some (k, c, c') ∧
      c'.kernel.currentThread = some 2 ∧ c.kernel.TickKeepsCurrent 0 := by
  obtain ⟨⟨k, c, c'⟩, h⟩ := Option.isSome_iff_exists.mp
    (show (lockedTick (threeThreads ++ [.start, .semWait 0])).isSome = true by decide +kernel)
  have hfacts : (lockedTick (threeThreads ++ [.start, .semWait 0])).map (fun x =>
      (x.2.1.kernel.currentThread, x.2.2.kernel.currentThread)) = some (some 2, some 2) := by
    decide +kernel
  rw [h] at hfacts
  obtain ⟨hbefore, hafter⟩ := Prod.mk.inj (Option.some.inj hfacts)
  obtain ⟨hr, rfl, hs⟩ := lockedTick_spec h
  refine ⟨k, _, c', h, hafter, ?_⟩
  exact (locked_timetick_current 0 hr .refl hs).mp (hafter.trans hbefore.symm)

/-- The timer thread waits for its semaphore, and thread 1 has locked the
scheduler: the tick hands the processor to the timer thread. -/
theorem locked_timetick_preempts :
    ∃ k c c', Reachable discoveryBoard k ∧
      Reaches (clockStep discoveryBoard 0) HeldLocked ⟨(schedSuspend k).1, 0⟩ c ∧
      osTimetick discoveryBoard 0 c = some c' ∧
      c.kernel.currentThread = some 1 ∧ c'.kernel.currentThread = some 2 := by
  obtain ⟨⟨k, c, c'⟩, h⟩ := Option.isSome_iff_exists.mp
    (show (lockedTick (timerThreads ++ [.start, .semWait 0])).isSome = true by decide +kernel)
  have hfacts : (lockedTick (timerThreads ++ [.start, .semWait 0])).map (fun x =>
      (x.2.1.kernel.currentThread, x.2.2.kernel.currentThread)) = some (some 1, some 2) := by
    decide +kernel
  rw [h] at hfacts
  obtain ⟨hbefore, hafter⟩ := Prod.mk.inj (Option.some.inj hfacts)
  obtain ⟨hr, rfl, hs⟩ := lockedTick_spec h
  exact ⟨k, _, c', hr, .refl, hs, hbefore, hafter⟩

end PosixRtos.Kernel
