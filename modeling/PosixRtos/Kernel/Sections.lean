import PosixRtos.Kernel.Moves

/-! The masked sections of the kernel, one by one. A section that puts no thread
to rest satisfies `Proceeds`; one that does satisfies `Parks`. Both are `Lawful`:
the representation invariant is kept, the current thread is runnable, and the
words of the context switch receive at most one request. -/
namespace PosixRtos.Kernel

open PosixRtos.Library.Rings PosixRtos.Library.Runs IntrusiveList

variable {board : Board} {k k' k'' : State} {L L' : Head → List Tid} {t u : Tid} {h : Head}

structure Proceeds (k : State) (L : Head → List Tid) (k' : State) (L' : Head → List Tid) : Prop
    extends Evolves k L k' L' where
  current : k'.CurrentRunnable
  cpu : CpuSwitch k k'

/-- A section without a switch. -/
theorem Evolves.proceeds (hev : Evolves k L k' L') (hc : k.CurrentRunnable)
    (hcpu : k'.cpu = k.cpu) (hcur : k'.currentThread = k.currentThread) : Proceeds k L k' L' where
  toEvolves := hev
  current t ht := by
    obtain ⟨hcount, hrun⟩ := hc t (hcur ▸ ht)
    exact ⟨hev.count ▸ hcount, hev.runnable t hrun⟩
  cpu := .inl ⟨hcpu, hcur⟩

/-- A section that ends in `sched_switch_thread`. -/
theorem Evolves.proceeds_switch (hev : Evolves k L k' L') (hcpu : k'.cpu = k.cpu)
    (hcur : k'.currentThread = k.currentThread) (hs : schedSwitchThread k' = some k'') :
    Proceeds k L k'' L' := by
  obtain ⟨hev', hcurrent⟩ := Evolves.switch hev.inv hs
  exact ⟨hev.trans hev', hcurrent, (schedSwitchThread_cpu hs).of_eq hcpu hcur⟩

theorem Proceeds.refl (hi : Inv k L) (hc : k.CurrentRunnable) : Proceeds k L k L :=
  (Evolves.refl hi).proceeds hc rfl rfl

/-! Putting the current thread to rest, and waking the first waiter of a list. -/

/-- `t` went to the list of `h`, which is not a ready list, and another thread
was chosen. -/
structure Parks (k : State) (L : Head → List Tid) (t : Tid) (h : Head) (k' : State) : Prop where
  inv : Inv k' (moved L t h)
  current : k'.CurrentRunnable
  cpu : CpuSwitch k k'
  count : k'.count = k.count
  ownThread : k'.ownThread = k.ownThread
  sem : k'.sem = k.sem
  sp : ∀ u, (k'.thread u).sp = (k.thread u).sp
  other : ∀ u, u ≠ t → (k'.thread u).status = (k.thread u).status

theorem Parks.runnable (hp : Parks k L t h k') (hut : u ≠ t) : k'.Runnable u ↔ k.Runnable u := by
  unfold State.Runnable
  rw [hp.other u hut]

theorem parks_switch (status : Status) (hi : Inv k L) (ht : t < k.count)
    (hready : ∀ p, h ≠ .ready p) (hn : status.Names (k.thread t).curPrio h)
    (hs : schedSwitchThread (((k.leaveReady t).insertTail h t).setStatus t status) = some k') :
    Parks k L t h k' := by
  have hparked := (hi.except ht).park (hi.logged t ht) hready hn
  obtain ⟨v, -, hk'⟩ := schedSwitchThread_spec hparked hs
  obtain ⟨hev, hcur⟩ := Evolves.switch hparked hs
  refine ⟨hev.inv, hcur, (schedSwitchThread_cpu hs).of_eq rfl rfl, hev.count, hev.ownThread,
    hev.sem, fun u => ?_, ?_⟩
  · rw [hev.sp, State.insertTail_leaveReady_thread, State.setStatus_sp]
  · intro u hut
    rw [hk', State.insertTail_leaveReady_thread, State.setStatus_of_ne k hut]

/-- The wait lists, of mutexes and of semaphores. -/
def Head.IsWait (h : Head) : Prop := Status.suspend.Names 0 h

theorem Head.isWait_mutexWait (mutex : Nat) : (Head.mutexWait mutex).IsWait := by
  simp [Head.IsWait, Status.Names]

theorem Head.isWait_semWait (sem : Nat) : (Head.semWait sem).IsWait := by
  simp [Head.IsWait, Status.Names]

theorem Head.IsWait.ne_ready (hw : h.IsWait) (p : Priority) : h ≠ .ready p := by
  rintro rfl
  simp [Head.IsWait, Status.Names] at hw

theorem Head.IsWait.names (hw : h.IsWait) (prio : Priority) : Status.suspend.Names prio h := by
  cases h <;> simp_all [Head.IsWait, Status.Names]

theorem suspendOn_spec (hi : Inv k L) (ht : t < k.count) (hw : h.IsWait)
    (hs : k.suspendOn t h = some k') : Parks k L t h k' :=
  parks_switch .suspend hi ht hw.ne_ready (hw.names _) hs

theorem wakeFirst_spec (hi : Inv k L) (hs : k.wakeFirst h = some k') :
    (L h = [] ∧ k' = k) ∨
      ∃ t rest, L h = t :: rest ∧ k'.Runnable t ∧
        (∀ u, u ≠ t → (k'.thread u).status = (k.thread u).status) ∧
        Proceeds k L k' (moved L t (.ready (k.thread t).curPrio)) := by
  unfold State.wakeFirst at hs
  rw [State.headEntry_eq hi.lists] at hs
  cases hlist : L h with
  | nil =>
    simp only [hlist, List.head?_nil] at hs
    cases hs
    exact .inl ⟨rfl, rfl⟩
  | cons t rest =>
    simp only [hlist, List.head?_cons] at hs
    have ht : t < k.count := hi.created (h := h) (by simp [hlist])
    have hwake : Evolves k L (k.enqueueReady t .ready) _ := .enqueueReady hi ht (.inl rfl)
    have hproceeds := hwake.proceeds_switch rfl rfl hs
    obtain ⟨v, -, hk'⟩ := schedSwitchThread_spec hwake.inv hs
    have hrun : k'.Runnable t := by
      rw [hk']
      exact runnable_enqueueReady (.inl rfl)
    refine .inr ⟨t, rest, rfl, hrun, fun u hut => ?_, hproceeds⟩
    rw [hk']
    exact congrArg Thread.status (k.setStatus_of_ne hut _)

theorem wakeFirst_isSome (hi : Inv k L) (hcur : k.currentThread = some u) (h : Head) :
    ∃ k', k.wakeFirst h = some k' := by
  unfold State.wakeFirst
  rw [State.headEntry_eq hi.lists]
  cases hlist : L h with
  | nil => exact ⟨k, rfl⟩
  | cons t rest =>
    have ht : t < k.count := hi.created (h := h) (by simp [hlist])
    have hwake : Evolves k L (k.enqueueReady t .ready) _ := .enqueueReady hi ht (.inl rfl)
    exact schedSwitchThread_isSome hwake.inv hcur (List.ne_nil_of_mem (mem_moved_self ..))

/-! What every masked section guarantees. -/

structure Lawful (k : State) (k' : State) (L' : Head → List Tid) : Prop where
  inv : Inv k' L'
  current : k'.CurrentRunnable
  cpu : CpuSwitch k k'
  count : k.count ≤ k'.count
  sp : ∀ u < k.count, (k'.thread u).sp = (k.thread u).sp

theorem Proceeds.lawful (hp : Proceeds k L k' L') : Lawful k k' L' :=
  ⟨hp.inv, hp.current, hp.cpu, hp.count.ge, fun u _ => hp.sp u⟩

theorem Parks.lawful (hp : Parks k L t h k') : Lawful k k' (moved L t h) :=
  ⟨hp.inv, hp.current, hp.cpu, hp.count.ge, fun u _ => hp.sp u⟩

theorem rawPthreadCreate_spec (hi : Inv k L) {attr : Option PthreadAttr} {memory : CreateMemory}
    (hs : rawPthreadCreate k attr memory = some (k', t)) :
    t = k.count ∧ (∃ thread, k' = { k with
        thread := Function.update k.thread k.count thread
        count := k.count + 1
        links := listInit k.links (.node k.count) }) ∧
      InvExcept k' L t := by
  unfold rawPthreadCreate at hs
  dsimp only at hs
  split at hs
  · cases hs
  obtain ⟨type, -, hs⟩ := Option.bind_eq_some_iff.mp hs
  obtain ⟨prio, -, hs⟩ := Option.bind_eq_some_iff.mp hs
  cases hs
  have hnew : ∀ h, k.count ∉ L h := fun h hmem => (hi.created hmem).false
  have hold : ∀ u < k.count + 1, u ≠ k.count → u < k.count := fun u hu hne => by omega
  refine ⟨rfl, ⟨_, rfl⟩, ?_⟩
  exact {
    lists := lists_listInit hi.lists hnew
    group := hi.group
    created := fun hmem => Nat.lt_succ_of_lt (hi.created hmem)
    aged := hi.aged
    logged := fun u hu hne => hi.logged u (hold u hu hne)
    bound := Nat.lt_succ_self _
    linked := .inr (detached_listInit hnew)
    home := fun p hmem => absurd hmem (hnew _)
    placed := by
      intro u hu hne
      simpa only [Function.update_of_ne hne] using hi.placed u (hold u hu hne) }

theorem schedInsertThread_inv (hi : InvExcept k L t) :
    Inv (schedInsertThread k t) (moved L t (.ready (k.thread t).curPrio)) := by
  have hi' : InvExcept { k with tlinks := listInsertTail k.tlinks (.head ()) (.node t) } L t :=
    { hi with }
  exact hi'.enqueueReady (.inl rfl)

/-- A call of `pthread_create`, which may have been refused: the threads that
existed are as they were, and the lists other than ready lists too. -/
structure Creates (k : State) (L : Head → List Tid) (k' : State) (L' : Head → List Tid) : Prop
    extends Lawful k k' L' where
  ownThread : k'.ownThread = k.ownThread
  sem : k'.sem = k.sem
  thread : ∀ u < k.count, k'.thread u = k.thread u
  shrink : ∀ h, (∀ p, h ≠ .ready p) → L' h ⊆ L h

theorem pthreadCreate_spec (hi : Inv k L) (hc : k.CurrentRunnable) (attr : Option PthreadAttr)
    (memory : CreateMemory) : ∃ L', Creates k L (pthreadCreate k attr memory).1 L' := by
  have hrefused : Creates k L k L :=
    ⟨(Proceeds.refl hi hc).lawful, rfl, rfl, fun _ _ => rfl, fun _ _ => List.Subset.refl _⟩
  unfold pthreadCreate
  split
  · exact ⟨L, hrefused⟩
  split
  · exact ⟨L, hrefused⟩
  next k₁ t hcreate =>
  obtain ⟨rfl, ⟨thread, rfl⟩, hexcept⟩ := rawPthreadCreate_spec hi hcreate
  let k₁ : State := { k with
    thread := Function.update k.thread k.count thread
    count := k.count + 1
    links := listInit k.links (.node k.count) }
  have hold : ∀ u < k.count, (schedInsertThread k₁ k.count).thread u = k.thread u := by
    intro u hu
    have hinsert : (schedInsertThread k₁ k.count).thread u = k₁.thread u :=
      Function.update_of_ne hu.ne _ _
    rw [hinsert]
    exact Function.update_of_ne hu.ne _ _
  refine ⟨_, ⟨schedInsertThread_inv hexcept, ?_, .inl ⟨rfl, rfl⟩, Nat.le_succ _, ?_⟩,
    rfl, rfl, hold, ?_⟩
  · intro u hu
    obtain ⟨hlt, hrun⟩ := hc u hu
    refine ⟨Nat.lt_succ_of_lt hlt, ?_⟩
    unfold State.Runnable
    rw [hold u hlt]
    exact hrun
  · intro u hu
    rw [hold u hu]
  · intro h hh
    rw [moved_of_ne (hh _)]
    exact List.erase_subset

/-! `sched_yield` and the tick. -/

theorem schedYieldRequeue_spec (hi : Inv k L) (hc : k.CurrentRunnable)
    (hs : schedYieldRequeue k = some k') :
    ∃ t, k.currentThread = some t ∧ k' = schedSetThreadReady k t ∧
      Proceeds k L k' (moved L t (.ready (k.thread t).curPrio)) := by
  obtain ⟨t, ht, hs⟩ := Option.bind_eq_some_iff.mp hs
  cases hs
  exact ⟨t, ht, rfl, (Evolves.enqueueReady hi (hc t ht).1 (.inl rfl)).proceeds hc rfl rfl⟩

theorem schedYield_spec (hi : Inv k L) (hc : k.CurrentRunnable) (hs : schedYield k = some k') :
    ∃ L', Proceeds k L k' L' := by
  obtain ⟨k₁, hrequeue, hs⟩ := Option.bind_eq_some_iff.mp hs
  obtain ⟨t, ht, rfl, hp⟩ := schedYieldRequeue_spec hi hc hrequeue
  exact ⟨_, hp.toEvolves.proceeds_switch rfl rfl hs⟩

theorem schedProcCurrentThread_spec (hi : Inv k L) (hc : k.CurrentRunnable)
    (hs : schedProcCurrentThread k = some k') :
    ∃ t L', k.currentThread = some t ∧ Evolves k L k' L' ∧ k'.cpu = k.cpu ∧
      k'.currentThread = k.currentThread ∧
      ∀ u, (u = t → (k.thread t).curTicks ≠ 1) → (k'.thread u).status = (k.thread u).status := by
  obtain ⟨t, ht, hs⟩ := Option.bind_eq_some_iff.mp hs
  let tick : Thread → Thread := fun x => { x with curTicks := x.curTicks - 1 }
  have htick : Evolves k L (k.setThread t tick) L :=
    .setTicks hi tick (fun _ => rfl) (fun _ => rfl) (fun _ => rfl)
  have hstatus := (sameQueues_setThread (k := k) (t := t) tick (fun _ => rfl) (fun _ => rfl)).status
  change some (if ((k.setThread t tick).thread t).curTicks = 0 then
    schedSetThreadReady (k.setThread t tick) t else k.setThread t tick) = some k' at hs
  split at hs
  · next hzero =>
    cases hs
    have hready := Evolves.enqueueReady htick.inv (hc t ht).1 (.inl rfl)
    refine ⟨t, _, ht, htick.trans hready, rfl, rfl, fun u hu => ?_⟩
    have hut : u ≠ t := by
      intro hut
      apply hu hut
      have hcur : (k.thread t).curTicks - 1 = 0 := by simpa [State.setThread, tick] using hzero
      bv_omega
    rw [← hstatus u]
    exact congrArg Thread.status (State.setStatus_of_ne _ hut _)
  · cases hs
    exact ⟨t, L, ht, htick, rfl, rfl, fun u _ => hstatus u⟩

theorem schedProcCpuUsage_spec (hs : schedProcCpuUsage board k = some k') :
    k' = { k with usage := k'.usage } := by
  obtain ⟨t, -, hs⟩ := Option.bind_eq_some_iff.mp hs
  dsimp only at hs
  generalize (if (k.thread t).type ≠ .idle then _ else _ : Usage) = usage at hs
  split at hs
  · cases hs
    rfl
  · cases hs
    rfl

/-- The four parts of a tick that the lock does not hold off. -/
theorem schedProc_cases (hs : schedProc board k = some k') :
    (k.locked = schedIsLocked ∧ k' = k) ∨
      (k.locked ≠ schedIsLocked ∧ ∃ k₁ k₂ k₃, schedProcCurrentThread k = some k₁ ∧
        schedWakeupSleepThread k₁ = some k₂ ∧ schedSwitchThread k₂ = some k₃ ∧
        schedProcCpuUsage board k₃ = some k') := by
  unfold schedProc at hs
  split at hs
  next hlocked =>
    cases hs
    exact .inl ⟨hlocked, rfl⟩
  next hlocked =>
    obtain ⟨k₁, h₁, hs⟩ := Option.bind_eq_some_iff.mp hs
    obtain ⟨k₂, h₂, hs⟩ := Option.bind_eq_some_iff.mp hs
    obtain ⟨k₃, h₃, hs⟩ := Option.bind_eq_some_iff.mp hs
    exact .inr ⟨hlocked, k₁, k₂, k₃, h₁, h₂, h₃, hs⟩

/-- A tick wakes sleeping threads and may rotate the current one; it leaves the
status of every other thread alone. -/
theorem schedProc_spec (hi : Inv k L) (hc : k.CurrentRunnable) (hs : schedProc board k = some k') :
    ∃ L', Proceeds k L k' L' ∧
      ∀ u, (k.thread u).status ≠ .sleep →
        (k.currentThread = some u → k.locked ≠ schedIsLocked → (k.thread u).curTicks ≠ 1) →
        (k'.thread u).status = (k.thread u).status := by
  rcases schedProc_cases hs with ⟨-, rfl⟩ | ⟨hlocked, k₁, k₂, k₃, h₁, h₂, h₃, hs⟩
  · exact ⟨L, .refl hi hc, fun _ _ _ => rfl⟩
  obtain ⟨t, L₁, ht, hev₁, hcpu₁, hcur₁, hstatus₁⟩ := schedProcCurrentThread_spec hi hc h₁
  obtain ⟨k₂', L₂, h₂', hev₂, hquiet⟩ := schedWakeupSleepThread_spec hev₁.inv
  rw [h₂] at h₂'
  cases h₂'
  have hswitch := (hev₁.trans hev₂).proceeds_switch (hquiet.cpu.trans hcpu₁)
    (hquiet.current.trans hcur₁) h₃
  obtain ⟨v, -, hk₃⟩ := schedSwitchThread_spec hev₂.inv h₃
  have hk' := schedProcCpuUsage_spec hs
  have hlast : Evolves k₃ L₂ k' L₂ := by
    rw [hk']
    exact .same hswitch.inv .outside rfl rfl fun _ => rfl
  refine ⟨L₂, ⟨hswitch.toEvolves.trans hlast, ?_, ?_⟩, ?_⟩
  · rw [hk']
    exact hswitch.current
  · rw [hk']
    exact hswitch.cpu
  · intro u hsleep hslice
    have h1 := hstatus₁ u (by
      rintro rfl
      exact hslice ht hlocked)
    have h2 := hquiet.status u (h1 ▸ hsleep)
    rw [hk', hk₃]
    exact h2.trans h1

/-! Blocking calls. -/

/-- Preparing a field of the thread that is about to rest changes nothing else. -/
theorem Parks.of_setThread {f : Thread → Thread} (hp : Parks (k.setThread t f) L t h k')
    (hsp : ∀ x, (f x).sp = x.sp) : Parks k L t h k' where
  inv := hp.inv
  current := hp.current
  cpu := hp.cpu.of_eq rfl rfl
  count := hp.count
  ownThread := hp.ownThread
  sem := hp.sem
  sp u := by
    rw [hp.sp]
    exact k.setThread_field t f Thread.sp hsp u
  other u hut := by
    rw [hp.other u hut, State.setThread_of_ne k hut]

theorem msleep_spec (hi : Inv k L) (hc : k.CurrentRunnable) {ms r : BitVec 32}
    (hs : msleep board k ms = some (k', r)) :
    (k.currentThread = none ∧ k' = k) ∨
      ∃ t, k.currentThread = some t ∧ Parks k L t .sleep k' := by
  unfold msleep at hs
  split at hs
  · next hnone =>
    cases hs
    exact .inl ⟨hnone, rfl⟩
  · next t ht =>
    obtain ⟨k₁, hswitch, hs⟩ := Option.bind_eq_some_iff.mp hs
    cases hs
    refine .inr ⟨t, ht, ?_⟩
    let ticks := ms.toNat / board.tickPeriod
    let sleep : Thread → Thread := fun x =>
      { x with sleepTicks := BitVec.ofNat 16 (if ticks ≠ 0 then ticks else 1) }
    have hi₁ : Inv (k.setThread t sleep) L :=
      hi.congr (sameQueues_setThread sleep (fun _ => rfl) (fun _ => rfl))
    have hp : Parks (k.setThread t sleep) L t .sleep k' :=
      parks_switch .sleep hi₁ (hc t ht).1 (by simp) rfl hswitch
    exact hp.of_setThread fun _ => rfl

theorem rawPthreadExitEntry_spec (hi : Inv k L) (hc : k.CurrentRunnable)
    (hs : rawPthreadExitEntry k = some k') :
    ∃ t, k.currentThread = some t ∧ Parks k L t .delete k' := by
  obtain ⟨t, ht, hs⟩ := Option.bind_eq_some_iff.mp hs
  have hi₁ : Inv { k with tlinks := listRemoveNode k.tlinks (.node t) } L :=
    hi.congr .outside
  have hp := parks_switch .closed hi₁ (hc t ht).1 (h := .delete) (by simp) rfl hs
  exact ⟨t, ht, { hp with cpu := hp.cpu.of_eq rfl rfl }⟩

/-- One attempt at a mutex: it is taken, it is already owned by the caller, or
the caller is suspended. -/
theorem rawPthreadMutexLock_cases {mutex : Nat} {r : Int}
    (hs : rawPthreadMutexLock k mutex = some (k', r)) :
    (k.currentThread = none ∧ k' = k ∧ r = 0) ∨
      ∃ t, k.currentThread = some t ∧
        ((k.ownThread mutex = none ∧ r = 0 ∧
            k' = { k with ownThread := Function.update k.ownThread mutex (some t) }) ∨
          (k.ownThread mutex = some t ∧ r = -EDEADLK ∧ k' = k) ∨
          (∃ owner, k.ownThread mutex = some owner ∧ owner ≠ t ∧ r = -EAGAIN ∧
            k.suspendOn t (.mutexWait mutex) = some k')) := by
  unfold rawPthreadMutexLock at hs
  split at hs
  · next hnone =>
    cases hs
    exact .inl ⟨hnone, rfl, rfl⟩
  next t ht =>
  refine .inr ⟨t, ht, ?_⟩
  split at hs
  · next hown =>
    cases hs
    exact .inl ⟨hown, rfl, rfl⟩
  next owner hown =>
  split at hs
  · next heq =>
    cases hs
    exact .inr (.inl ⟨heq ▸ hown, rfl, rfl⟩)
  · next hne =>
    obtain ⟨k₁, hsuspend, hs⟩ := Option.bind_eq_some_iff.mp hs
    cases hs
    exact .inr (.inr ⟨owner, hown, fun h => hne h.symm, rfl, hsuspend⟩)

theorem pthreadMutexUnlock_cases {mutex : Nat} {r : Int}
    (hs : pthreadMutexUnlock k mutex = some (k', r)) :
    (k.currentThread = none ∧ k' = k ∧ r = 0) ∨
      ∃ t, k.currentThread = some t ∧
        ((k.ownThread mutex = some t ∧ r = 0 ∧
            { k with ownThread := Function.update k.ownThread mutex none }.wakeFirst
              (.mutexWait mutex) = some k') ∨
          (k.ownThread mutex ≠ some t ∧ r = -EINVAL ∧ k' = k)) := by
  unfold pthreadMutexUnlock at hs
  split at hs
  · next hnone =>
    cases hs
    exact .inl ⟨hnone, rfl, rfl⟩
  next t ht =>
  refine .inr ⟨t, ht, ?_⟩
  split at hs
  · next hown =>
    obtain ⟨k₁, hwake, hs⟩ := Option.bind_eq_some_iff.mp hs
    cases hs
    exact .inl ⟨hown, rfl, hwake⟩
  · next hown =>
    cases hs
    exact .inr ⟨hown, rfl, rfl⟩

theorem rawSemWait_cases {sem : Nat} {r : Int} (hs : rawSemWait k sem = some (k', r)) :
    ((k.sem sem).value ≠ 0 ∧ r = 0 ∧ k' = k.setSemValue sem ((k.sem sem).value - 1)) ∨
      ((k.sem sem).value = 0 ∧ r = -EINVAL ∧
        ∃ t, k.currentThread = some t ∧ k.suspendOn t (.semWait sem) = some k') := by
  unfold rawSemWait at hs
  split at hs
  · next hzero =>
    obtain ⟨t, ht, hs⟩ := Option.bind_eq_some_iff.mp hs
    obtain ⟨k₁, hsuspend, hs⟩ := Option.bind_eq_some_iff.mp hs
    cases hs
    exact .inr ⟨hzero, rfl, t, ht, hsuspend⟩
  · next hpos =>
    cases hs
    exact .inl ⟨hpos, rfl, rfl⟩

/-- The count after a post that was not refused. -/
def State.incremented (k : State) (sem : Nat) : State :=
  if (k.sem sem).value < (k.sem sem).initValue then k.setSemValue sem ((k.sem sem).value + 1) else k

theorem semPost_cases {sem : Nat} {r : Int} (hs : semPost k sem = some (k', r)) :
    (semValueMax ≤ (k.sem sem).value ∧ r = -EINVAL ∧ k' = k) ∨
      ((k.sem sem).value < semValueMax ∧ r = 0 ∧
        (k.incremented sem).wakeFirst (.semWait sem) = some k') := by
  unfold semPost at hs
  split at hs
  · next hfull =>
    cases hs
    exact .inl ⟨hfull, rfl, rfl⟩
  · next hfull =>
    obtain ⟨k₁, hwake, hs⟩ := Option.bind_eq_some_iff.mp hs
    cases hs
    exact .inr ⟨not_le.mp hfull, rfl, hwake⟩

theorem rawSchedReportSignal_spec (hi : Inv k L) (ht : t < k.count)
    {r : Int} (hs : rawSchedReportSignal k t = some (k', r)) :
    ((k.thread t).status = .int ∧ r = -EINVAL ∧ k' = k) ∨
      ((k.thread t).status ≠ .int ∧ r = 0 ∧ (k'.thread t).status = .int ∧
        (∀ u, u ≠ t → (k'.thread u).status = (k.thread u).status) ∧
        Proceeds k L k' (moved L t (.ready (k.thread t).curPrio))) := by
  unfold rawSchedReportSignal at hs
  split at hs
  · next hint =>
    cases hs
    exact .inl ⟨hint, rfl, rfl⟩
  next hint =>
  obtain ⟨k₁, hswitch, hs⟩ := Option.bind_eq_some_iff.mp hs
  cases hs
  let frame : Thread → Thread := fun x => { x with intSp := pthreadHwStackInit (x.sp - 8) }
  have hframe : Evolves k L (rawPthreadIntInit k t) L :=
    .setTicks hi frame (fun _ => rfl) (fun _ => rfl) (fun _ => rfl)
  have hprio : ((rawPthreadIntInit k t).thread t).curPrio = (k.thread t).curPrio := by
    simp [rawPthreadIntInit]
  have henq := Evolves.enqueueReady hframe.inv (t := t) ht (.inr rfl)
  rw [hprio] at henq
  obtain ⟨v, -, hk'⟩ := schedSwitchThread_spec henq.inv hswitch
  refine .inr ⟨hint, rfl, ?_, fun u hut => ?_, (hframe.trans henq).proceeds_switch rfl rfl hswitch⟩
  · rw [hk']
    exact State.setStatus_self ..
  · rw [hk']
    have hold : (rawPthreadIntInit k t).thread u = k.thread u := k.setThread_of_ne hut _
    exact congrArg Thread.status ((State.setStatus_of_ne _ hut _).trans hold)

end PosixRtos.Kernel
