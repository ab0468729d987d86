import PosixRtos.Kernel.ContextSwitch

/-! Signal handlers. A thread in a handler has the status `INT`, its handler
runs on the slot `int_sp`, and the context it interrupted waits in `sp`. That
context is safe as long as nothing overwrites the status: which slot a switch
uses is decided by the status alone. -/
namespace PosixRtos.Kernel

open PosixRtos.Library.Rings PosixRtos.Library.Runs IntrusiveList

variable {board : Board} {k k' k₀ k₁ : State} {L : Head → List Tid} {t u : Tid} {op : Op}

/-! Whose contexts the words of the switch name. This holds in every run. -/

structure Owned (k : State) : Prop where
  started : k.currentThread ≠ none
  settled : k.cpu.threadSwitchInterruptFlag = false → k.cpu.live.map Slot.thread = k.currentThread
  saves : k.cpu.threadSwitchInterruptFlag = true →
    k.cpu.interruptFromThread = none ∨
      k.cpu.interruptFromThread.map Slot.thread = k.cpu.live.map Slot.thread
  resumes : k.cpu.threadSwitchInterruptFlag = true →
    k.cpu.interruptToThread.map Slot.thread = k.currentThread

theorem Owned.switch (hk : Owned k) (hsw : CpuSwitch k k') : Owned k' := by
  rcases hsw with ⟨hcpu, hcur⟩ | ⟨a, b, ha, hb, hcpu⟩
  · exact ⟨hcur ▸ hk.started, by rw [hcpu, hcur]; exact hk.settled, by rw [hcpu]; exact hk.saves,
      by rw [hcpu, hcur]; exact hk.resumes⟩
  refine ⟨by simp [hb], ?_, ?_, ?_⟩
  · simp [hcpu, hwContextSwitch_flag]
  · intro _
    rw [hcpu, hwContextSwitch_live, hwContextSwitch_from]
    split
    · next hflag => exact hk.saves hflag
    · next hflag =>
      right
      rw [hk.settled (by simpa using hflag), ha, Option.map_some, contextSlot_thread]
  · intro _
    rw [hcpu, hwContextSwitch_to, hb, Option.map_some, contextSlot_thread]

theorem Owned.pendSV (hk : Owned k) (hs : pendSVHandler k = some k') : Owned k' := by
  rcases pendSVHandler_spec hs with ⟨-, rfl⟩ | ⟨hflag, slot, hto, rfl⟩
  · exact hk
  have hcur := saveLive_currentThread k
  have hslot := hk.resumes hflag
  rw [hto] at hslot
  exact ⟨hcur.trans_ne hk.started, fun _ => hslot.trans hcur.symm, fun h => by simp at h,
    fun h => by simp at h⟩

theorem Owned.intExit (hs : rawPthreadIntExitEntry k = some k') : Owned k' := by
  obtain ⟨t, ht, hs⟩ := Option.bind_eq_some_iff.mp hs
  cases hs
  have hcur : (k.setStatus t .ready).currentThread = some t := ht
  exact ⟨by simp [hcur], fun h => by simp [hwContextSwitchTo] at h, fun _ => .inl rfl,
    fun _ => hcur.symm⟩

theorem Owned.step (hk : Owned k) (hi : Inv k L) (hc : k.CurrentRunnable)
    (hs : step board k op = some k') : Owned k' := by
  by_cases hsection : op.IsSection
  · obtain ⟨L', hlaw⟩ := step_lawful hsection hi hc hs
    exact hk.switch hlaw.cpu
  cases op with
  | start =>
    rw [Kernel.step, if_neg hk.started] at hs
    cases hs
  | intExit => exact .intExit hs
  | pendSV => exact hk.pendSV hs
  | run psp =>
    cases hs
    exact ⟨hk.started, hk.settled, hk.saves, hk.resumes⟩
  | _ => exact absurd trivial hsection

theorem StartedRun.owned (hr : StartedRun board anyStep k) : Owned k := by
  obtain ⟨k₀, k₁, hboot, hnone, hlive, hstart, hrun⟩ := hr
  induction hrun with
  | refl =>
    obtain ⟨t, -, hs⟩ := Option.bind_eq_some_iff.mp hstart
    cases hs
    exact ⟨by simp, fun h => by simp [hwContextSwitchTo] at h, fun _ => .inl rfl, fun _ => rfl⟩
  | tail hprefix _ hs ih =>
    have hbefore : StartedRun board anyStep _ := ⟨k₀, k₁, hboot, hnone, hlive, hstart, hprefix⟩
    obtain ⟨L, hi, hc⟩ := hbefore.reachable.inv
    exact ih.step hi hc hs

/-! Which steps overwrite the status of a thread that is in its handler. -/

/-- The steps of the current thread `t`, or of the tick, that put `t` into a
ready, sleep or wait list of their own accord, and write its status on the way. -/
def OverwritesInt (k : State) (t : Tid) : Op → Prop
  | .yieldRequeue | .msleep _ | .exit => True
  | .tick => k.locked ≠ schedIsLocked ∧ (k.thread t).curTicks = 1
  | .mutexLock mutex => k.ownThread mutex ≠ none ∧ k.ownThread mutex ≠ some t
  | .semWait sem => (k.sem sem).value = 0
  | _ => False

instance (k : State) (t : Tid) : ∀ op, Decidable (OverwritesInt k t op)
  | .yieldRequeue | .msleep _ | .exit => .isTrue trivial
  | .tick | .mutexLock _ => inferInstanceAs (Decidable (_ ∧ _))
  | .semWait sem => inferInstanceAs (Decidable ((k.sem sem).value = 0))
  | .start | .create _ _ | .switchThread | .mutexUnlock _ | .semPost _ | .reportSignal _
  | .intExit | .schedSuspend | .schedRecover _ | .pendSV | .run _ => .isFalse not_false

/-- Waking a waiter leaves a thread alone that is not suspended. -/
theorem wakeFirst_status {h : Head} (hw : h.IsWait) (hi : Inv k L) (hs : k.wakeFirst h = some k')
    (hsuspend : (k.thread t).status ≠ .suspend) :
    (k'.thread t).status = (k.thread t).status := by
  obtain ⟨-, rfl⟩ | ⟨u, rest, hlist, -, hother, -⟩ := wakeFirst_spec hi hs
  · rfl
  have hsuspended := hi.names_of_mem (h := h) (t := u) (by simp [hlist])
  have htu : t ≠ u := by
    rintro rfl
    cases h <;> simp_all [Head.IsWait, Status.Names]
  exact hother t htu

/-- A masked section that signals no handler to `t`, and that `t` does not take
to put itself into a list, leaves the status of `t` alone, unless `t` waits to
be woken. -/
theorem step_status (hsection : op.IsSection) (hi : Inv k L) (hc : k.CurrentRunnable)
    (ht : t < k.count) (hsleep : op = .tick → (k.thread t).status ≠ .sleep)
    (hsuspend : (k.thread t).status ≠ .suspend) (hsignal : op ≠ .reportSignal t)
    (hok : k.currentThread = some t → ¬ OverwritesInt k t op) (hs : step board k op = some k') :
    (k'.thread t).status = (k.thread t).status := by
  -- whoever is put to rest by `op` is the current thread, and that is not `t`
  have hother : ∀ {h c}, k.currentThread = some c → OverwritesInt k c op → Parks k L c h k' →
      (k'.thread t).status = (k.thread t).status := by
    intro h c hcur hover hp
    have htc : t ≠ c := by
      rintro rfl
      exact hok hcur hover
    exact hp.other t htc
  cases op with
  | start | intExit | pendSV | run => exact hsection.elim
  | create attr memory =>
    cases hs
    obtain ⟨L', hcreates⟩ := pthreadCreate_spec hi hc attr memory
    rw [hcreates.thread t ht]
  | yieldRequeue =>
    obtain ⟨c, hcur, rfl, -⟩ := schedYieldRequeue_spec hi hc hs
    have htc : t ≠ c := by
      rintro rfl
      exact hok hcur trivial
    rw [schedSetThreadReady, State.enqueueReady_thread, State.setStatus_of_ne k htc]
  | switchThread =>
    obtain ⟨v, -, hk'⟩ := schedSwitchThread_spec hi hs
    rw [hk']
  | tick =>
    obtain ⟨L', -, hstatus⟩ := schedProc_spec hi hc hs
    exact hstatus t (hsleep rfl) fun hcur hlocked hslice => hok hcur ⟨hlocked, hslice⟩
  | msleep ms =>
    obtain ⟨⟨k₁, r⟩, hcall, rfl⟩ := Option.map_eq_some_iff.mp hs
    rcases msleep_spec hi hc hcall with ⟨-, rfl⟩ | ⟨c, hcur, hp⟩
    · rfl
    · exact hother hcur trivial hp
  | mutexLock mutex =>
    obtain ⟨⟨k₁, r⟩, hcall, rfl⟩ := Option.map_eq_some_iff.mp hs
    rcases rawPthreadMutexLock_cases hcall with ⟨-, rfl, -⟩ | ⟨c, hcur, hcase⟩
    · rfl
    rcases hcase with ⟨-, -, rfl⟩ | ⟨-, -, rfl⟩ | ⟨owner, hown, hne, -, hsuspend⟩
    · rfl
    · rfl
    · refine hother hcur ⟨by simp [hown], by simpa [hown] using hne⟩
        (suspendOn_spec hi (hc c hcur).1 (Head.isWait_mutexWait mutex) hsuspend)
  | mutexUnlock mutex =>
    obtain ⟨⟨k₁, r⟩, hcall, rfl⟩ := Option.map_eq_some_iff.mp hs
    rcases pthreadMutexUnlock_cases hcall with ⟨-, rfl, -⟩ | ⟨c, hcur, hcase⟩
    · rfl
    rcases hcase with ⟨-, -, hwake⟩ | ⟨-, -, rfl⟩
    · have hi' : Inv { k with ownThread := Function.update k.ownThread mutex none } L :=
        hi.congr .outside
      have hkept := wakeFirst_status (t := t) (Head.isWait_mutexWait mutex) hi' hwake hsuspend
      exact hkept
    · rfl
  | semWait sem =>
    obtain ⟨⟨k₁, r⟩, hcall, rfl⟩ := Option.map_eq_some_iff.mp hs
    rcases rawSemWait_cases hcall with ⟨-, -, rfl⟩ | ⟨hzero, -, c, hcur, hsuspend⟩
    · rfl
    · exact hother hcur hzero
        (suspendOn_spec hi (hc c hcur).1 (Head.isWait_semWait sem) hsuspend)
  | semPost sem =>
    obtain ⟨⟨k₁, r⟩, hcall, rfl⟩ := Option.map_eq_some_iff.mp hs
    rcases semPost_cases hcall with ⟨-, -, rfl⟩ | ⟨-, -, hwake⟩
    · rfl
    unfold State.incremented at hwake
    split at hwake
    · have hi' : Inv (k.setSemValue sem ((k.sem sem).value + 1)) L := setSemValue_inv hi _ _
      have hkept := wakeFirst_status (t := t) (Head.isWait_semWait sem) hi' hwake hsuspend
      exact hkept
    · exact wakeFirst_status (Head.isWait_semWait sem) hi hwake hsuspend
  | reportSignal thread =>
    have htt : t ≠ thread := by
      rintro rfl
      exact hsignal rfl
    rw [step] at hs
    split at hs
    · next hlt =>
      obtain ⟨⟨k₁, r⟩, hcall, rfl⟩ := Option.map_eq_some_iff.mp hs
      rcases rawSchedReportSignal_spec hi hlt hcall with ⟨-, -, rfl⟩ | ⟨-, -, -, hrest, -⟩
      · rfl
      · exact hrest t htt
    · cases hs
  | exit =>
    obtain ⟨c, hcur, hp⟩ := rawPthreadExitEntry_spec hi hc hs
    exact hother hcur trivial hp
  | schedSuspend | schedRecover =>
    cases hs
    rfl

theorem step_int (hsection : op.IsSection) (hi : Inv k L) (hc : k.CurrentRunnable)
    (ht : t < k.count) (hint : (k.thread t).status = .int)
    (hok : k.currentThread = some t → ¬ OverwritesInt k t op) (hs : step board k op = some k') :
    (k'.thread t).status = .int := by
  by_cases hsignal : op = .reportSignal t
  · subst hsignal
    rw [step, if_pos ht] at hs
    obtain ⟨⟨k₁, r⟩, hcall, rfl⟩ := Option.map_eq_some_iff.mp hs
    rcases rawSchedReportSignal_spec hi ht hcall with ⟨-, -, rfl⟩ | ⟨-, -, hself, -, -⟩
    · exact hint
    · exact hself
  · rw [step_status hsection hi hc ht (by simp [hint]) (by simp [hint]) hsignal hok hs, hint]

/-! From the acceptance of the signal to the return of the handler. -/

/-- The handler of `t` does not return. A handler of another thread returns only
when that thread's context is the live one, with no switch pending. -/
def UntilReturn (t : Tid) (k : State) (op : Op) : Prop :=
  op = .intExit → k.currentThread ≠ some t ∧ k.cpu.threadSwitchInterruptFlag = false

instance (t : Tid) (k : State) (op : Op) : Decidable (UntilReturn t k op) :=
  inferInstanceAs (Decidable (_ → _))

/-- A step that in addition leaves the status of `t` alone. -/
def Undisturbed (t : Tid) (k : State) (op : Op) : Prop :=
  UntilReturn t k op ∧ (k.currentThread = some t → ¬ OverwritesInt k t op)

instance (t : Tid) (k : State) (op : Op) : Decidable (Undisturbed t k op) :=
  inferInstanceAs (Decidable (_ ∧ _))

/-- `t` is in its handler, whose context is in `int_sp` wherever it is saved or
loaded, while `sp` holds `value`. -/
structure HandlerContext (k : State) (t : Tid) (value : BitVec 32) : Prop where
  created : t < k.count
  status : (k.thread t).status = .int
  sp : (k.thread t).sp = value
  live : k.cpu.live.map Slot.thread = some t → k.cpu.live = some (.intSp t)
  saves : k.cpu.threadSwitchInterruptFlag = true → k.cpu.live.map Slot.thread = some t →
    k.cpu.interruptFromThread = some (.intSp t)
  loads : k.cpu.threadSwitchInterruptFlag = true → k.currentThread = some t →
    k.cpu.interruptToThread = some (.intSp t)

/-- A request selects `int_sp` for a thread whose status is `INT`. -/
theorem HandlerContext.of_switch (hown : Owned k) (hsw : CpuSwitch k k')
    (hcreated : t < k'.count) (hstatus : (k'.thread t).status = .int) {value : BitVec 32}
    (hsp : (k'.thread t).sp = value)
    (hlive : k.cpu.live.map Slot.thread = some t → k.cpu.live = some (.intSp t))
    (hsaves : k.cpu.threadSwitchInterruptFlag = true → k.cpu.live.map Slot.thread = some t →
      k.cpu.interruptFromThread = some (.intSp t))
    (hloads : k.cpu.threadSwitchInterruptFlag = true → k.currentThread = some t →
      k.cpu.interruptToThread = some (.intSp t)) : HandlerContext k' t value := by
  rcases hsw with ⟨hcpu, hcur⟩ | ⟨a, b, ha, hb, hcpu⟩
  · exact ⟨hcreated, hstatus, hsp, by rw [hcpu]; exact hlive, by rw [hcpu]; exact hsaves,
      by rw [hcpu, hcur]; exact hloads⟩
  refine ⟨hcreated, hstatus, hsp, ?_, ?_, ?_⟩
  · rw [hcpu, hwContextSwitch_live]
    exact hlive
  · intro _ howner
    rw [hcpu, hwContextSwitch_live] at howner
    rw [hcpu, hwContextSwitch_from]
    split
    · next hflag => exact hsaves hflag howner
    · next hflag =>
      rw [hown.settled (by simpa using hflag), ha] at howner
      cases howner
      rw [contextSlot_of_int hstatus]
  · intro _ hcur
    rw [hb] at hcur
    cases hcur
    rw [hcpu, hwContextSwitch_to, contextSlot_of_int hstatus]

theorem HandlerContext.pendSV {value : BitVec 32} (hctx : HandlerContext k t value)
    (hown : Owned k) (hs : pendSVHandler k = some k') : HandlerContext k' t value := by
  rcases pendSVHandler_spec hs with ⟨-, rfl⟩ | ⟨hflag, slot, hto, rfl⟩
  · exact hctx
  have hsame := sameQueues_saveLive k
  have hnotSp : k.cpu.interruptFromThread ≠ some (.sp t) := by
    intro hfrom
    rcases hown.saves hflag with hnone | howner
    · rw [hfrom] at hnone
      cases hnone
    · rw [hfrom] at howner
      have := hctx.saves hflag howner.symm
      rw [hfrom] at this
      cases this
  refine ⟨hsame.count ▸ hctx.created, (hsame.status t).trans hctx.status,
    (saveLive_sp hnotSp).trans hctx.sp, fun howner => ?_, fun h => by simp at h,
    fun h => by simp at h⟩
  have hcur : k.currentThread = some t := by
    rw [← hown.resumes hflag, hto]
    exact howner
  rw [← hctx.loads hflag hcur, hto]

theorem HandlerContext.step {value : BitVec 32} (hctx : HandlerContext k t value)
    (hown : Owned k) (hi : Inv k L) (hc : k.CurrentRunnable) (hok : Undisturbed t k op)
    (hs : step board k op = some k') : HandlerContext k' t value := by
  by_cases hsection : op.IsSection
  · obtain ⟨L', hlaw⟩ := step_lawful hsection hi hc hs
    exact .of_switch hown hlaw.cpu (hctx.created.trans_le hlaw.count)
      (step_int hsection hi hc hctx.created hctx.status hok.2 hs)
      ((hlaw.sp t hctx.created).trans hctx.sp) hctx.live hctx.saves hctx.loads
  cases op with
  | start =>
    rw [Kernel.step, if_neg hown.started] at hs
    cases hs
  | intExit =>
    obtain ⟨c, hcur, hs⟩ := Option.bind_eq_some_iff.mp hs
    obtain ⟨hnot, hflag⟩ := hok.1 rfl
    have htc : t ≠ c := by
      rintro rfl
      exact hnot hcur
    have howner := hown.settled hflag
    rw [hcur] at howner
    cases hs
    refine ⟨hctx.created, ?_, ?_, hctx.live, fun _ hlive => ?_, fun _ hcur' => ?_⟩
    · rw [State.setStatus_of_ne k htc]
      exact hctx.status
    · rw [State.setStatus_of_ne k htc]
      exact hctx.sp
    · have hlive' : k.cpu.live.map Slot.thread = some t := hlive
      rw [howner] at hlive'
      exact absurd (Option.some.inj hlive').symm htc
    · exact absurd hcur' hnot
  | pendSV => exact hctx.pendSV hown hs
  | run psp =>
    cases hs
    exact ⟨hctx.created, hctx.status, hctx.sp, hctx.live, hctx.saves, hctx.loads⟩
  | _ => exact absurd trivial hsection

/-- The moment the signal is accepted. -/
theorem handlerContext_accepted (hi : Inv k₀ L) (hown : Owned k₀)
    (ht : t < k₀.count) (hcur : k₀.currentThread ≠ some t)
    (hlive : k₀.cpu.live.map Slot.thread ≠ some t)
    (hs : rawSchedReportSignal k₀ t = some (k₁, 0)) :
    HandlerContext k₁ t (k₀.thread t).sp := by
  rcases rawSchedReportSignal_spec hi ht hs with ⟨-, hr, -⟩ | ⟨-, -, hint, -, hp⟩
  · exact absurd hr (by decide)
  exact .of_switch hown hp.cpu (hp.count ▸ ht) hint (hp.sp t) (fun h => absurd h hlive)
    (fun _ h => absurd h hlive) (fun _ h => absurd h hcur)

theorem StartedRun.tail (hr : StartedRun board anyStep k) (hs : step board k op = some k') :
    StartedRun board anyStep k' := by
  obtain ⟨k₀, k₁, hboot, hnone, hlive, hstart, hrun⟩ := hr
  exact ⟨k₀, k₁, hboot, hnone, hlive, hstart, .tail hrun trivial hs⟩

/-- As long as no step overwrites its status, a thread in its handler keeps the
context that the signal interrupted. -/
theorem handler_keeps_context (hr : StartedRun board anyStep k₀) (ht : t < k₀.count)
    (hcur : k₀.currentThread ≠ some t) (hlive : k₀.cpu.live.map Slot.thread ≠ some t)
    (hs : rawSchedReportSignal k₀ t = some (k₁, 0))
    (hrun : Reaches (step board) (Undisturbed t) k₁ k) :
    HandlerContext k t (k₀.thread t).sp := by
  have haccept : step board k₀ (.reportSignal t) = some k₁ := by
    rw [step, if_pos ht, hs, Option.map_some]
  have hboth : StartedRun board anyStep k ∧ HandlerContext k t (k₀.thread t).sp := by
    refine hrun.invariant (fun k => StartedRun board anyStep k ∧ HandlerContext k t _) ?_ ?_
    · obtain ⟨L, hi, -⟩ := hr.reachable.inv
      exact ⟨hr.tail haccept, handlerContext_accepted hi hr.owned ht hcur hlive hs⟩
    · rintro s op s' ⟨hstarted, hctx⟩ hok hstep
      obtain ⟨L, hi, hc⟩ := hstarted.reachable.inv
      exact ⟨hstarted.tail hstep, hctx.step hstarted.owned hi hc hok hstep⟩
  exact hboth.2

/-- A signal for thread 2, which has not run yet, while thread 1 runs; then the
given inputs. -/
def signalled (ok : State → Op → Prop) [∀ k op, Decidable (ok k op)] (inputs : List Op) :
    Option (State × State × State) := do
  let k₀ ← startBoot threeThreads anyStep [.pendSV]
  let k₁ ← rawSchedReportSignal k₀ 2
  let k ← runInputs (step discoveryBoard) ok inputs k₁.1
  if 2 < k₀.count ∧ k₀.currentThread ≠ some 2 ∧ k₀.cpu.live.map Slot.thread ≠ some 2 ∧ k₁.2 = 0 then
    some (k₀, k₁.1, k)
  else none

private theorem signalled_spec {ok : State → Op → Prop} [∀ k op, Decidable (ok k op)]
    {inputs : List Op} (h : signalled ok inputs = some (k₀, k₁, k)) :
    StartedRun discoveryBoard anyStep k₀ ∧ 2 < k₀.count ∧ k₀.currentThread ≠ some 2 ∧
      k₀.cpu.live.map Slot.thread ≠ some 2 ∧ rawSchedReportSignal k₀ 2 = some (k₁, 0) ∧
      Reaches (step discoveryBoard) ok k₁ k := by
  simp only [signalled, Option.bind_eq_bind, Option.bind_eq_some_iff] at h
  obtain ⟨k₀, hboot, ⟨k₁, r⟩, haccept, k, hrun, h⟩ := h
  split at h
  · next hcond =>
    cases h
    obtain ⟨hlt, hcur, hlive, rfl⟩ := hcond
    exact ⟨startedRun_startBoot hboot, hlt, hcur, hlive, haccept, .of_runInputs hrun⟩
  · cases h

/-- Thread 1's slice ends, and the handler of thread 2 is loaded and runs. -/
def enterHandler : List Op := [.tick, .pendSV, .run 0x20002180]

theorem entered_handler_context :
    ∃ k₀ k₁ k, signalled (Undisturbed 2) enterHandler = some (k₀, k₁, k) ∧
      k.cpu.live = some (.intSp 2) ∧ HandlerContext k 2 (k₀.thread 2).sp := by
  obtain ⟨⟨k₀, k₁, k⟩, h⟩ := Option.isSome_iff_exists.mp
    (show (signalled (Undisturbed 2) enterHandler).isSome = true by decide +kernel)
  obtain ⟨hr, hlt, hcur, hlive, haccept, hrun⟩ := signalled_spec h
  have hfacts : (signalled (Undisturbed 2) enterHandler).map (fun k => k.2.2.cpu.live) =
      some (some (.intSp 2)) := by decide +kernel
  rw [h] at hfacts
  exact ⟨k₀, k₁, k, h, Option.some.inj hfacts,
    handler_keeps_context hr hlt hcur hlive haccept hrun⟩

/-- The time slice of thread 2 ends inside its handler: `sched_set_thread_ready`
writes `READY`, and the switch away saves the handler's context into `sp`. -/
theorem tick_in_handler_overwrites_sp :
    ∃ k₀ k₁ k, StartedRun discoveryBoard anyStep k₀ ∧ 2 < k₀.count ∧
      k₀.currentThread ≠ some 2 ∧ k₀.cpu.live.map Slot.thread ≠ some 2 ∧
      rawSchedReportSignal k₀ 2 = some (k₁, 0) ∧
      Reaches (step discoveryBoard) (UntilReturn 2) k₁ k ∧
      (k.thread 2).sp ≠ (k₀.thread 2).sp := by
  let inputs := enterHandler ++ [.tick, .pendSV]
  obtain ⟨⟨k₀, k₁, k⟩, h⟩ := Option.isSome_iff_exists.mp
    (show (signalled (UntilReturn 2) inputs).isSome = true by decide +kernel)
  obtain ⟨hr, hlt, hcur, hlive, haccept, hrun⟩ := signalled_spec h
  have hfacts : (signalled (UntilReturn 2) inputs).map (fun k =>
      decide ((k.2.2.thread 2).sp = (k.1.thread 2).sp)) = some false := by decide +kernel
  rw [h] at hfacts
  exact ⟨k₀, k₁, k, hr, hlt, hcur, hlive, haccept, hrun,
    of_decide_eq_false (Option.some.inj hfacts)⟩

end PosixRtos.Kernel
