import PosixRtos.Signal.Served

/-! Signals are delivered exactly once, in the order in which they were queued,
in every run that nothing hinders. -/
namespace PosixRtos.Signal

open PosixRtos.Library.Rings PosixRtos.Library.Runs PosixRtos.Kernel.IntrusiveList
open Kernel (Tid Slot Board)

variable {C : Type} {board : Board} {w w' : World C} {waiting : Tid → List Block}
  {owner : Block → Owner Tid C} {t : Tid} {c : C} {i : Input C}

/-- A step that sends `t` no signal and registers no further handler of `t`. -/
def Ignores (t : Tid) (w : World C) : Input C → Prop
  | .report c => (w.signals.calls c).pid ≠ t
  | .signal u _ _ => u ≠ t
  | _ => True

theorem WorldInv.contended (hw : WorldInv board w waiting owner) {b : Block}
    (h : w.signals.Contended b) : w.Contended b := by
  rcases h with hcall | ⟨t, pc, hpc, hreleased⟩
  · exact .inl hcall
  · obtain ⟨value, hctx⟩ := (hw.active t (List.ne_nil_of_mem hpc)).context
    exact .inr ⟨t, hctx.created, pc, hpc, hreleased⟩

/-- A report starts a loop exactly where there is none. -/
theorem WorldInv.orderly_report (hw : WorldInv board w waiting owner)
    (hok : Unhindered w (.report c)) :
    Orderly w.signals
      (.report c (decide ((w.kernel.thread (w.signals.calls c).pid).status ≠ .int))) := by
  refine ⟨?_, hok.1⟩
  intro hstarts
  by_contra hsome
  obtain ⟨value, hctx⟩ := (hw.active _ hsome).context
  exact of_decide_eq_true hstarts hctx.status

variable [DecidableEq C]

theorem signalStep_eq {op : Op Tid C} {k' : Kernel.State}
    (hs : w.signalStep op k' = some w') :
    ∃ s', step w.signals op = some s' ∧
      w' = { w with kernel := k', signals := s', queued := w.signals.queuedAfter w.queued op } := by
  obtain ⟨s', hstep, hs⟩ := Option.bind_eq_some_iff.mp hs
  exact ⟨s', hstep, (Option.some.inj hs).symm⟩

theorem WorldInv.report (hw : WorldInv board w waiting owner) (hok : Unhindered w (.report c))
    (hs : worldStep board w (.report c) = some w') :
    (∃ waiting' owner', WorldInv board w' waiting' owner') ∧
      step w.signals (.report c
        (decide ((w.kernel.thread (w.signals.calls c).pid).status ≠ .int))) = some w'.signals := by
  have horderly := hw.orderly_report hok
  obtain ⟨k', hkernel, hs⟩ := Option.bind_eq_some_iff.mp hs
  obtain ⟨w₁, hsignal, hs⟩ := Option.bind_eq_some_iff.mp hs
  obtain ⟨s', hstep, rfl⟩ := signalStep_eq hsignal
  rw [Kernel.step] at hkernel
  split at hkernel
  · next ht =>
    obtain ⟨⟨k₁, r⟩, hreport, rfl⟩ := Option.map_eq_some_iff.mp hkernel
    by_cases hint : (w.kernel.thread (w.signals.calls c).pid).status = .int
    · have hrefuse : decide ((w.kernel.thread (w.signals.calls c).pid).status ≠ .int) = false := by
        simp [hint]
      have hlook := hok.2
      rw [if_pos hint] at hlook
      simp only [Kernel.rawSchedReportSignal, if_pos hint, Option.some.injEq, Prod.mk.injEq]
        at hreport
      obtain ⟨rfl, -⟩ := hreport
      rw [hrefuse] at hstep horderly hs ⊢
      cases hs
      exact ⟨hw.refused horderly ht hint hlook hstep, hstep⟩
    · have haccept : decide ((w.kernel.thread (w.signals.calls c).pid).status ≠ .int) = true := by
        simp [hint]
      have hother := hok.2
      rw [if_neg hint] at hother
      have hzero : r = 0 := by
        rw [Kernel.rawSchedReportSignal, if_neg hint] at hreport
        obtain ⟨k₂, -, hreport⟩ := Option.bind_eq_some_iff.mp hreport
        cases hreport
        rfl
      subst hzero
      rw [haccept] at hstep horderly hs ⊢
      cases hs
      exact ⟨hw.accepted horderly ht hother.1 hother.2 hreport hstep, hstep⟩
  · cases hkernel

theorem WorldInv.handle (hw : WorldInv board w waiting owner)
    (hs : worldStep board w (.handle t) = some w') :
    (∃ waiting' owner', WorldInv board w' waiting' owner') ∧
      step w.signals (.handle t) = some w'.signals := by
  rw [worldStep] at hs
  split at hs
  · next hguard =>
    obtain ⟨hrunning, -, hflag⟩ := hguard
    have hcur := hw.current_of_running hflag hrunning
    split at hs
    · next hhead =>
      obtain ⟨k', hexit, hs⟩ := Option.bind_eq_some_iff.mp hs
      obtain ⟨s', hstep, rfl⟩ := signalStep_eq hs
      obtain ⟨pc, outer, hpcs, hpc⟩ := handleStep_cases hstep
      obtain ⟨hsingle, rfl⟩ := hw.signals.handlers_eq hpcs
      rw [hpcs, List.head?_cons] at hhead
      cases hhead
      exact ⟨hw.returnStep hsingle hflag hcur hexit hpc hstep, hstep⟩
    · next hhead =>
      obtain ⟨s', hstep, rfl⟩ := signalStep_eq hs
      obtain ⟨pc, outer, hpcs, hpc⟩ := handleStep_cases hstep
      obtain ⟨hsingle, rfl⟩ := hw.signals.handlers_eq hpcs
      have hexit : pc ≠ .exit := by
        rintro rfl
        rw [hpcs, List.head?_cons] at hhead
        exact hhead rfl
      exact ⟨hw.loopStep hsingle hexit hpc hstep, hstep⟩
  · cases hs

/-- The statements of a call and of `signal` leave the kernel and the loops alone. -/
theorem WorldInv.plain {op : Op Tid C} (hw : WorldInv board w waiting owner)
    (hok : Orderly w.signals op) (hwaiting : w.signals.waitingAfter waiting op = waiting)
    (hpcs : ∀ s', step w.signals op = some s' → s'.handlers = w.signals.handlers)
    (hs : w.signalStep op w.kernel = some w') :
    (∃ waiting' owner', WorldInv board w' waiting' owner') ∧
      step w.signals op = some w'.signals := by
  obtain ⟨s', hstep, rfl⟩ := signalStep_eq hs
  obtain ⟨owner', hw'⟩ := hw.plainStep hok (hpcs s' hstep) hwaiting hstep
  exact ⟨⟨waiting, owner', hw'⟩, hstep⟩

/-- Every unhindered step keeps the invariant; it is an orderly statement of
`signal.c`, or it leaves the signals alone. -/
theorem worldStep_inv (hw : WorldInv board w waiting owner) (hok : Unhindered w i)
    (hs : worldStep board w i = some w') :
    (∃ waiting' owner', WorldInv board w' waiting' owner') ∧
      (w'.signals = w.signals ∧ (∀ t, i ≠ .handle t) ∨
        ∃ op, Orderly w.signals op ∧ step w.signals op = some w'.signals ∧
          (∀ t, i = .handle t ↔ op = .handle t) ∧ ∀ t, Ignores t w i → Quiet t w.signals op) := by
  cases i with
  | kernel op =>
    have hkernel : op ≠ .pendSV → (∀ t, op ≠ .reportSignal t) → op ≠ .intExit →
        (Kernel.step board w.kernel op).bind (fun k => some { w with kernel := k }) = some w' →
        (∃ waiting' owner', WorldInv board w' waiting' owner') ∧ w'.signals = w.signals := by
      intro hpend hreport hreturn hs
      obtain ⟨k', hstep, hs⟩ := Option.bind_eq_some_iff.mp hs
      cases hs
      exact ⟨⟨_, _, hw.kernelStep hpend hreport hreturn hok hstep⟩, rfl⟩
    have hplain : (∃ waiting' owner', WorldInv board w' waiting' owner') ∧
        w'.signals = w.signals := by
      cases op with
      | reportSignal thread => cases hs
      | intExit => cases hs
      | pendSV =>
        have hpend : w.pendSV = some w' := hs
        refine ⟨⟨_, _, hw.pendSV hpend⟩, ?_⟩
        obtain ⟨k', -, hs⟩ := Option.bind_eq_some_iff.mp hpend
        split at hs <;> cases hs <;> rfl
      | _ => exact hkernel (by simp) (by simp) (by simp) hs
    exact ⟨hplain.1, .inl ⟨hplain.2, by simp⟩⟩
  | sigqueue c pid signo value =>
    have horderly : Orderly w.signals (.sigqueue c pid signo value) := trivial
    obtain ⟨hinv, hstep⟩ := hw.plain horderly rfl
      (fun s' hs' => by
        change w.signals.sigqueue c pid signo value = some s' at hs'
        unfold State.sigqueue at hs'
        split at hs' <;> cases hs'
        rfl) hs
    exact ⟨hinv, .inr ⟨.sigqueue c pid signo value, trivial, hstep, by simp, fun _ _ => trivial⟩⟩
  | call c =>
    have horderly : Orderly w.signals (.call c) := fun i hi hpc hcontended =>
      hok i hi hpc (hw.contended hcontended)
    obtain ⟨hinv, hstep⟩ := hw.plain horderly rfl
      (fun s' hs' => (callStep_frame hs').handlers) hs
    exact ⟨hinv, .inr ⟨_, horderly, hstep, by simp, fun _ _ => trivial⟩⟩
  | report c =>
    obtain ⟨hinv, hstep⟩ := hw.report hok hs
    exact ⟨hinv, .inr ⟨_, hw.orderly_report hok, hstep, by simp, fun _ h => h⟩⟩
  | handle t =>
    obtain ⟨hinv, hstep⟩ := hw.handle hs
    exact ⟨hinv, .inr ⟨.handle t, trivial, hstep, by simp, fun _ _ => trivial⟩⟩
  | signal u signum handler =>
    have horderly : Orderly w.signals (.signal u signum handler) := trivial
    obtain ⟨hinv, hstep⟩ := hw.plain horderly rfl
      (fun s' hs' => by cases hs'; rfl) hs
    exact ⟨hinv, .inr ⟨.signal u signum handler, trivial, hstep, by simp, fun _ h => h⟩⟩

/-- A loop that the processor executes goes on, and it takes only so many
statements in any run in which `t` is sent nothing more. -/
def Finishes (board : Board) (w : World C) (t : Tid) : Prop :=
  ∃ bound, ∀ inputs w', Follows (worldStep board) (fun w i => Unhindered w i ∧ Ignores t w i) w
      inputs w' →
    inputs.count (.handle t) ≤ bound ∧
      (w'.signals.handlers t ≠ [] → w'.running = some ⟨t, 1⟩ →
        w'.kernel.cpu.threadSwitchInterruptFlag = false →
          (worldStep board w' (.handle t)).isSome)

theorem WorldInv.handle_defined (hw : WorldInv board w waiting owner)
    (hsome : w.signals.handlers t ≠ []) (hrunning : w.running = some ⟨t, 1⟩)
    (hflag : w.kernel.cpu.threadSwitchInterruptFlag = false) :
    (worldStep board w (.handle t)).isSome := by
  obtain ⟨pc, outer, hpcs⟩ := List.exists_cons_of_ne_nil hsome
  obtain ⟨hsingle, rfl⟩ := hw.signals.handlers_eq hpcs
  obtain ⟨s', hs⟩ := handlePc_defined hw.signals hsingle
  have hstep : step w.signals (.handle t) = some s' := by
    simp [step, State.handleStep, hsingle, hs]
  have hcur := hw.current_of_running hflag hrunning
  have hguard : w.running = some ⟨t, (w.signals.handlers t).length⟩ ∧
      w.signals.handlers t ≠ [] ∧ w.kernel.cpu.threadSwitchInterruptFlag = false :=
    ⟨by rw [hsingle]; exact hrunning, hsome, hflag⟩
  rw [worldStep, if_pos hguard]
  split
  · simp [Kernel.rawPthreadIntExitEntry, hcur, World.signalStep, hstep]
  · simp [World.signalStep, hstep]

theorem WorldInv.finishes (hw : WorldInv board w waiting owner) (t : Tid) :
    Finishes board w t := by
  refine ⟨workOf (w.signals.sigList t).length (w.signals.handlers t) (waiting t).length,
    fun inputs w' hrun => ?_⟩
  let amount (w : World C) (n : Nat) : Prop :=
    (∃ waiting owner, WorldInv board w waiting owner) ∧ Remains t w.signals n
  obtain ⟨left, ⟨⟨waiting', owner', hw'⟩, -⟩, hcount⟩ :=
    hrun.count_le (.handle t) amount
      ⟨⟨waiting, owner, hw⟩, waiting, owner, hw.signals, rfl⟩ (by
        rintro w i w' n ⟨⟨waiting, owner, hw⟩, hremains⟩ ⟨hok, hignores⟩ hs
        obtain ⟨hinv, hsignals⟩ := worldStep_inv hw hok hs
        rcases hsignals with ⟨hsame, hother⟩ | ⟨op, horderly, hstep, hhandle, hquiet⟩
        · refine ⟨n, ⟨hinv, hsame ▸ hremains⟩, ?_⟩
          rw [if_neg (hother t)]
          exact le_rfl
        · obtain ⟨m, hm, hle⟩ := hremains.step horderly (hquiet t hignores) hstep
          refine ⟨m, ⟨hinv, hm⟩, ?_⟩
          rw [if_congr (hhandle t) rfl rfl]
          exact hle)
  exact ⟨by omega, hw'.handle_defined⟩

/-- What is true of the signals of a thread: the handlers have been called for
the events in the order in which they were queued, and for each event that is
`done` once for every handler that was registered when the event was queued (and
for those registered since, up to the end of its walk); if no handler loop is
under way, then every event is done and the list is empty; otherwise the loop is
what the thread executes when it runs, and it finishes. -/
structure HandledOnce (board : Board) (w : World C) (t : Tid) : Prop where
  account : ∃ done current rest,
    w.queued t = (done ++ current.toList).map Prod.fst ++ rest ∧
    w.signals.notified t = walked (w.signals.sigList t) (done ++ current.toList) ∧
    (∀ p ∈ done, p.1.registered ≤ p.2 ∧ p.2 ≤ (w.signals.sigList t).length) ∧
    (w.signals.handlers t = [] → current = none ∧ rest = [])
  empty : w.signals.handlers t = [] → listIsEmpty w.signals.links (.head t) = true
  status : t < w.kernel.count →
    ((w.kernel.thread t).status = .int ↔ w.signals.handlers t ≠ [])
  resumed : w.signals.handlers t ≠ [] → InHandler w t
  finishes : Finishes board w t

theorem WorldInv.handledOnce (hw : WorldInv board w waiting owner) (t : Tid) :
    HandledOnce board w t where
  account := by
    obtain ⟨done, current, rest, hl⟩ := hw.accounts.ledger t
    refine ⟨done, current, rest, hl.order, hl.log, ?_, ?_⟩
    · intro p hp
      exact ⟨hl.complete p hp, hl.bounded p (List.mem_append_left _ hp)⟩
    · intro hnone
      have hempty : waiting t = [] := hw.quiet t (by simp [hnone])
      refine ⟨hl.current_eq_none (by rw [hnone]; rfl), ?_⟩
      have hwaiting := hl.waiting
      rw [hempty, List.map_nil] at hwaiting
      exact List.map_eq_nil_iff.mp hwaiting.symm
  empty hnone := by
    have hloop := hw.signals.loop t
    rw [hnone, hw.quiet t (by simp [hnone])] at hloop
    have hlist : Leaving w.signals.links t none [] := hloop.list
    exact decide_eq_true hlist.next_head
  status := hw.status_iff
  resumed := hw.active t
  finishes := hw.finishes t

/-- In every unhindered run the signals of every thread are handled once. -/
theorem signals_handled_once {start : World C} (hstart : Started board start)
    (hrun : Reaches (worldStep board) Unhindered start w) (t : Tid) : HandledOnce board w t := by
  have hinv : ∃ waiting owner, WorldInv board w waiting owner := by
    refine hrun.invariant (fun w => ∃ waiting owner, WorldInv board w waiting owner)
      ⟨_, _, started_inv hstart⟩ ?_
    rintro w i w' ⟨waiting, owner, hw⟩ hok hs
    exact (worldStep_inv hw hok hs).1
  obtain ⟨waiting, owner, hw⟩ := hinv
  exact hw.handledOnce t

instance {T : Type} : ∀ pc : HandlerPc T, Decidable pc.PastLook
  | .test (.head _) | .exit => .isTrue trivial
  | .test (.node _) | .loadHead | .compare _ _ | .notify _ _ | .free _ | .unlinkNext _
  | .unlinkPrev _ => .isFalse not_false

instance [Fintype C] (w : World C) (b : Block) : Decidable (w.Contended b) :=
  inferInstanceAs (Decidable ((∃ _, _) ∨ ∃ t < w.kernel.count, _))

instance (w : World C) (op : Kernel.Op) : Decidable (∀ t, w.kernel.currentThread = some t →
    (w.kernel.thread t).status = .int → ¬ Kernel.OverwritesInt w.kernel t op) :=
  match h : w.kernel.currentThread with
  | none => .isTrue (by simp)
  | some t => decidable_of_iff ((w.kernel.thread t).status = .int →
      ¬ Kernel.OverwritesInt w.kernel t op) (by simp)

instance (w : World C) (t : Tid) : Decidable (w.Reportable t) :=
  inferInstanceAs (Decidable ((∀ b ∈ leavingOf (w.signals.handlers t), _ ≠ _) ∧ ite _ _ _))

instance [Fintype C] (w : World C) : ∀ i, Decidable (Unhindered w i)
  | .kernel op => inferInstanceAs (Decidable (∀ t, _ = some t → _ → ¬ Kernel.OverwritesInt _ t op))
  | .call _ => inferInstanceAs (Decidable (∀ i < sigEventTable, _ → ¬ w.Contended i))
  | .report c => inferInstanceAs (Decidable (w.Reportable (w.signals.calls c).pid))
  | .sigqueue _ _ _ _ | .handle _ | .signal _ _ _ => .isTrue trivial

/-- The idle thread, thread 1, and thread 2 of a lower priority than thread 1. -/
def senderAndReceiver : List Kernel.Op :=
  [.create (some ⟨1, 1, 0, 0, 512⟩) ⟨true, 0x20000000⟩,
   .create (some ⟨0, 5, 20, 0, 512⟩) ⟨true, 0x20001000⟩,
   .create (some ⟨0, 5, 16, 0, 512⟩) ⟨true, 0x20002000⟩]

/-- The scheduler has been started in the state that the inputs lead to. -/
def bootWorld (before : List Kernel.Op) : Option (World (Fin 1)) := do
  let k₀ ← Kernel.boot before
  if k₀.currentThread = none ∧ k₀.cpu.live = none ∧ Kernel.NoHandler k₀ then
    let kernel ← Kernel.schedStart k₀
    some {
      kernel := kernel
      signals :=
        { flag := fun _ => false
          signo := fun _ => 0
          value := fun _ => 0
          links := ⟨id, id⟩
          sigList := fun _ => []
          calls := fun _ => ⟨0, 0, 0, .returned none⟩
          handlers := fun _ => []
          notified := fun _ => [] }
      saved := fun slot => match slot with
        | .sp t => some ⟨t, 0⟩
        | .intSp _ => none
      running := none
      queued := fun _ => [] }
  else none

theorem started_bootWorld {before : List Kernel.Op} {w : World (Fin 1)}
    (hs : bootWorld before = some w) : Started Kernel.discoveryBoard w := by
  obtain ⟨k₀, hboot, hs⟩ := Option.bind_eq_some_iff.mp hs
  split at hs
  · next hcold =>
    obtain ⟨kernel, hstart, hs⟩ := Option.bind_eq_some_iff.mp hs
    cases hs
    refine ⟨⟨k₀, Kernel.reachable_boot hboot, hcold.1, hcold.2.1, hcold.2.2, hstart⟩, ?_,
      fun _ => ⟨rfl, rfl⟩, rfl, fun _ => rfl⟩
    exact ⟨fun _ => rfl, fun _ => Links.ring_nil_iff.mpr ⟨rfl, rfl⟩, fun _ => rfl, fun _ => rfl,
      fun _ => rfl⟩
  · cases hs

/-- Thread 1 runs, and queues a signal for thread 2. -/
def sendSignal (value : Int) : List (Input (Fin 1)) :=
  Input.sigqueue 0 2 5 value :: List.replicate 6 (Input.call 0) ++ [Input.report 0]

/-- Thread 1 sleeps for a tick, and thread 2 runs; and the tick that wakes thread 1. -/
def letReceiverRun : List (Input (Fin 1)) := [.kernel (.msleep 1), .kernel .pendSV]
def wakeSender : List (Input (Fin 1)) := [.kernel .tick, .kernel .pendSV]

/-- Thread 2 registers a handler; the second signal comes while the handler loop
is busy with the first. -/
def twoSignalsInTime : List (Input (Fin 1)) :=
  [Input.kernel .pendSV] ++ letReceiverRun ++ [Input.signal 2 5 1] ++ wakeSender ++
    sendSignal 7 ++ letReceiverRun ++ List.replicate 3 (Input.handle 2) ++ wakeSender ++
    Input.sigqueue 0 2 5 8 :: List.replicate 7 (Input.call 0) ++ [Input.report 0] ++
    letReceiverRun ++ List.replicate 16 (Input.handle 2)

theorem twoSignalsInTime_handled_once :
    ∃ start w, bootWorld senderAndReceiver = some start ∧
      runInputs (worldStep Kernel.discoveryBoard) Unhindered twoSignalsInTime start = some w ∧
      w.signals.notified 2 = [⟨1, 7⟩, ⟨1, 8⟩] ∧ HandledOnce Kernel.discoveryBoard w 2 := by
  let run : Option (World (Fin 1)) := do
    let start ← bootWorld senderAndReceiver
    runInputs (worldStep Kernel.discoveryBoard) Unhindered twoSignalsInTime start
  have hfacts : run.map (fun w => w.signals.notified 2) = some [⟨1, 7⟩, ⟨1, 8⟩] := by
    decide +kernel
  obtain ⟨w, hw, hlog⟩ := Option.map_eq_some_iff.mp hfacts
  obtain ⟨start, hstart, hrun⟩ := Option.bind_eq_some_iff.mp hw
  exact ⟨start, w, hstart, hrun, hlog,
    signals_handled_once (started_bootWorld hstart) (.of_runInputs hrun) 2⟩

/-- The second signal comes after the loop has seen the list empty, and before
`__pthread_int_exit_entry`: its report is refused, and the loop returns. -/
def signalTooLate : List (Input (Fin 1)) :=
  [Input.kernel .pendSV] ++ sendSignal 7 ++ letReceiverRun ++
    List.replicate 8 (Input.handle 2) ++ wakeSender ++ sendSignal 8 ++ letReceiverRun ++
    [Input.handle 2]

theorem signalTooLate_is_left_waiting :
    ∃ start w : World (Fin 1), Started Kernel.discoveryBoard start ∧
      Reaches (worldStep Kernel.discoveryBoard) anyStep start w ∧
      ((w.signals.calls 0).pc = .returned (some 0) ∧ (w.kernel.thread 2).status = .ready ∧
        w.signals.handlers 2 = [] ∧ listIsEmpty w.signals.links (.head 2) = false) := by
  let run : Option (World (Fin 1)) := do
    let start ← bootWorld senderAndReceiver
    runInputs (worldStep Kernel.discoveryBoard) anyStep signalTooLate start
  have hfacts : run.map (fun w => ((w.signals.calls 0).pc, (w.kernel.thread 2).status,
      w.signals.handlers 2, listIsEmpty w.signals.links (.head 2))) =
        some (.returned (some 0), .ready, [], false) := by decide +kernel
  obtain ⟨w, hw, hfacts⟩ := Option.map_eq_some_iff.mp hfacts
  obtain ⟨start, hstart, hrun⟩ := Option.bind_eq_some_iff.mp hw
  simp only [Prod.mk.injEq] at hfacts
  exact ⟨start, w, started_bootWorld hstart, .of_runInputs hrun, hfacts⟩

end PosixRtos.Signal
