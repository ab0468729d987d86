import PosixRtos.Signal.OneOwner
import PosixRtos.Signal.World

/-! Every signal is handled once. While nothing hinders it, a thread with events
in its list is in its handler, and the handler loop is what the thread executes
when it runs. -/
namespace PosixRtos.Signal

open PosixRtos.Library.Rings PosixRtos.Library.Runs PosixRtos.Kernel.IntrusiveList
open Kernel (Tid Slot Board)

variable {C : Type} {board : Board} {w w' : World C} {waiting : Tid → List Block}
  {owner : Block → Owner Tid C} {t u : Tid} {c : C} {k' : Kernel.State} {op : Kernel.Op}

/-- Nothing but `PendSV_Handler` loads a context. -/
theorem step_live (hr : Kernel.StartedRun board anyStep w.kernel) (hop : op ≠ .pendSV)
    (hs : Kernel.step board w.kernel op = some k') : k'.cpu.live = w.kernel.cpu.live := by
  obtain ⟨L, hi, hc⟩ := hr.reachable.inv
  by_cases hsection : op.IsSection
  · obtain ⟨L', hlaw⟩ := Kernel.step_lawful hsection hi hc hs
    rcases hlaw.cpu with ⟨hcpu, -⟩ | ⟨a, b, -, -, hcpu⟩
    · rw [hcpu]
    · rw [hcpu, Kernel.hwContextSwitch_live]
  cases op with
  | start =>
    rw [Kernel.step, if_neg hr.owned.started] at hs
    cases hs
  | intExit =>
    obtain ⟨thread, -, hs⟩ := Option.bind_eq_some_iff.mp hs
    cases hs
    rfl
  | pendSV => exact absurd rfl hop
  | run psp =>
    cases hs
    rfl
  | _ => exact absurd trivial hsection

/-- A thread in its handler stays there, when the kernel leaves its status alone. -/
theorem InHandler.step (hh : InHandler w t) (hr : Kernel.StartedRun board anyStep w.kernel)
    (hop : op ≠ .pendSV) (hok : Kernel.Undisturbed t w.kernel op)
    (hs : Kernel.step board w.kernel op = some k') (hkernel : w'.kernel = k')
    (hrunning : w'.running = w.running) (hsaved : w'.saved (.intSp t) = w.saved (.intSp t)) :
    InHandler w' t := by
  obtain ⟨value, hctx⟩ := hh.context
  obtain ⟨L, hi, hc⟩ := hr.reachable.inv
  have hlive := step_live hr hop hs
  subst hkernel
  refine ⟨⟨value, hctx.step hr.owned hi hc hok hs⟩, ?_, ?_⟩
  · rw [hlive, hrunning]
    exact hh.live
  · rw [hlive, hsaved]
    exact hh.saved

/-- A masked section of the kernel that is no report and no return. -/
theorem WorldInv.kernelStep (hw : WorldInv board w waiting owner) (hop : op ≠ .pendSV)
    (hreport : ∀ t, op ≠ .reportSignal t) (hreturn : op ≠ .intExit)
    (hok : ∀ t, w.kernel.currentThread = some t → (w.kernel.thread t).status = .int →
      ¬ Kernel.OverwritesInt w.kernel t op)
    (hs : Kernel.step board w.kernel op = some k') :
    WorldInv board { w with kernel := k' } waiting owner where
  kernel := hw.kernel.tail hs
  signals := hw.signals
  accounts := hw.accounts
  quiet := hw.quiet
  idle t ht hnone hint := by
    rcases Kernel.step_new_int hs ht hint with hsame | ⟨hlt, hold⟩
    · exact hreport t hsame
    · exact hw.idle t hlt hnone hold
  active t ht := by
    have hh := hw.active t ht
    obtain ⟨value, hctx⟩ := hh.context
    have hundisturbed : Kernel.Undisturbed t w.kernel op :=
      ⟨fun h => absurd h hreturn, fun hcur => hok t hcur hctx.status⟩
    exact hh.step hw.kernel hop hundisturbed hs rfl rfl rfl
  saved := hw.saved
  running context hrunning := by
    rw [step_live hw.kernel hop hs]
    exact hw.running context hrunning

/-- A slot that is not saved into keeps what it has. -/
theorem saveRunning_of_ne {slot : Slot} (hne : w.kernel.cpu.interruptFromThread ≠ some slot) :
    w.saveRunning slot = w.saved slot := by
  unfold World.saveRunning
  cases hfrom : w.kernel.cpu.interruptFromThread with
  | none => rfl
  | some fromSlot =>
    have hslot : slot ≠ fromSlot := by
      rintro rfl
      exact hne hfrom
    exact Function.update_of_ne hslot ..

theorem saveRunning_self {slot : Slot} (hfrom : w.kernel.cpu.interruptFromThread = some slot) :
    w.saveRunning slot = w.running := by
  rw [World.saveRunning, hfrom]
  exact Function.update_self ..

/-- The slot that is saved into belongs to the thread whose context is live. -/
theorem WorldInv.live_of_from (hw : WorldInv board w waiting owner)
    (hflag : w.kernel.cpu.threadSwitchInterruptFlag = true) {slot : Slot}
    (hfrom : w.kernel.cpu.interruptFromThread = some slot) :
    w.kernel.cpu.live.map Slot.thread = some slot.thread := by
  rcases hw.kernel.owned.saves hflag with hnone | hsaves
  · rw [hfrom] at hnone
    cases hnone
  · rw [← hsaves, hfrom]
    rfl

theorem WorldInv.saveRunning_thread (hw : WorldInv board w waiting owner)
    (hflag : w.kernel.cpu.threadSwitchInterruptFlag = true) {slot : Slot} {context : Context}
    (hslot : w.saveRunning slot = some context) : context.thread = slot.thread := by
  by_cases hfrom : w.kernel.cpu.interruptFromThread = some slot
  · rw [saveRunning_self hfrom] at hslot
    have howner := hw.running context hslot
    rw [hw.live_of_from hflag hfrom] at howner
    exact (Option.some.inj howner).symm
  · rw [saveRunning_of_ne hfrom] at hslot
    exact hw.saved slot context hslot

/-- The switch leaves the loop of a thread in its handler in `int_sp`. -/
theorem WorldInv.saveRunning_intSp (hw : WorldInv board w waiting owner)
    (hflag : w.kernel.cpu.threadSwitchInterruptFlag = true) (hh : InHandler w t) :
    w.saveRunning (.intSp t) = some ⟨t, 1⟩ := by
  obtain ⟨value, hctx⟩ := hh.context
  by_cases howner : w.kernel.cpu.live.map Slot.thread = some t
  · rw [saveRunning_self (hctx.saves hflag howner)]
    exact hh.live howner
  · have hfrom : w.kernel.cpu.interruptFromThread ≠ some (.intSp t) := fun hfrom =>
      howner (hw.live_of_from hflag hfrom)
    rw [saveRunning_of_ne hfrom]
    exact hh.saved howner

theorem WorldInv.pendSV (hw : WorldInv board w waiting owner) (hs : w.pendSV = some w') :
    WorldInv board w' waiting owner := by
  obtain ⟨k', hpend, hs⟩ := Option.bind_eq_some_iff.mp hs
  have hown := hw.kernel.owned
  have hstep : Kernel.step board w.kernel .pendSV = some k' := hpend
  split at hs
  · next hflag =>
    cases hs
    rcases Kernel.pendSVHandler_spec hpend with ⟨hclear, -⟩ | ⟨-, slot, hto, hk'⟩
    · rw [hflag] at hclear
      cases hclear
    have hlive : k'.cpu.live = some slot := by rw [hk']
    refine ⟨hw.kernel.tail hstep, hw.signals, hw.accounts, hw.quiet, ?_, ?_,
      fun slot context => hw.saveRunning_thread hflag, ?_⟩
    · intro t ht hnone hint
      rcases Kernel.step_new_int hstep ht hint with hsame | ⟨hlt, hold⟩
      · cases hsame
      · exact hw.idle t hlt hnone hold
    · intro t ht
      have hh := hw.active t ht
      obtain ⟨value, hctx⟩ := hh.context
      have hkept := hw.saveRunning_intSp hflag hh
      refine ⟨⟨value, hctx.pendSV hown hpend⟩, ?_, fun _ => hkept⟩
      intro howner
      have hcur : w.kernel.currentThread = some t := by
        rw [← hown.resumes hflag, hto]
        rw [hlive] at howner
        exact howner
      change w.kernel.cpu.interruptToThread.bind w.saveRunning = some ⟨t, 1⟩
      rw [hctx.loads hflag hcur, Option.bind_some, hkept]
    · intro context hrunning
      change w.kernel.cpu.interruptToThread.bind w.saveRunning = some context at hrunning
      rw [hto, Option.bind_some] at hrunning
      change k'.cpu.live.map Slot.thread = some context.thread
      rw [hlive, Option.map_some, hw.saveRunning_thread hflag hrunning]
  · next hflag =>
    cases hs
    rcases Kernel.pendSVHandler_spec hpend with ⟨-, rfl⟩ | ⟨hset, -⟩
    · exact ⟨hw.kernel, hw.signals, hw.accounts, hw.quiet, hw.idle, hw.active, hw.saved,
        hw.running⟩
    · exact absurd hset hflag

/-- A statement that concerns neither the loops nor the kernel. -/
theorem WorldInv.plainStep [DecidableEq C] {op : Op Tid C} {s' : State Tid C}
    (hw : WorldInv board w waiting owner) (hok : Orderly w.signals op)
    (hpcs : s'.handlers = w.signals.handlers)
    (hwaiting : w.signals.waitingAfter waiting op = waiting)
    (hs : step w.signals op = some s') :
    ∃ owner', WorldInv board
      { w with signals := s', queued := w.signals.queuedAfter w.queued op } waiting owner' := by
  obtain ⟨owner', hi⟩ := step_inv hw.signals hok hs
  have ha := step_accounts hw.signals hw.accounts hok hs
  rw [hwaiting] at hi ha
  refine ⟨owner', hw.kernel, hi, ha, ?_, ?_, ?_, hw.saved, hw.running⟩
  · intro t ht
    rw [hpcs] at ht
    exact hw.quiet t ht
  · intro t ht hnone
    rw [hpcs] at hnone
    exact hw.idle t ht hnone
  · intro t ht
    rw [hpcs] at ht
    have hh := hw.active t ht
    exact ⟨hh.context, hh.live, hh.saved⟩

/-- The status `INT` and a handler loop go together. -/
theorem WorldInv.status_iff (hw : WorldInv board w waiting owner) (ht : t < w.kernel.count) :
    (w.kernel.thread t).status = .int ↔ w.signals.handlers t ≠ [] := by
  constructor
  · intro hint hnone
    exact hw.idle t ht hnone hint
  · intro hsome
    obtain ⟨value, hctx⟩ := (hw.active t hsome).context
    exact hctx.status

/-- What a report does to the loops. -/
theorem sigeventReport_handlers [DecidableEq C] {s s' : State Tid C} {starts : Bool}
    (hs : s.sigeventReport c starts = some s') :
    s'.handlers = if starts then
        Function.update s.handlers (s.calls c).pid (.loadHead :: s.handlers (s.calls c).pid)
      else s.handlers := by
  obtain ⟨b, -, ⟨rfl, rfl⟩ | ⟨rfl, rfl⟩⟩ := sigeventReport_cases hs
  · rfl
  · rfl

/-- A report for a thread in its handler: the loop will find the event. -/
theorem WorldInv.refused [DecidableEq C] {s' : State Tid C}
    (hw : WorldInv board w waiting owner) (hok : Orderly w.signals (.report c false))
    (ht : (w.signals.calls c).pid < w.kernel.count)
    (hint : (w.kernel.thread (w.signals.calls c).pid).status = .int)
    (hlook : ∀ pc ∈ w.signals.handlers (w.signals.calls c).pid, ¬ pc.PastLook)
    (hs : step w.signals (.report c false) = some s') :
    ∃ waiting' owner', WorldInv board
      { w with signals := s', queued := w.signals.queuedAfter w.queued (.report c false) }
      waiting' owner' := by
  obtain ⟨owner', hi⟩ := step_inv hw.signals hok hs
  have ha := step_accounts hw.signals hw.accounts hok hs
  have hpcs := sigeventReport_handlers hs
  simp only [Bool.false_eq_true, if_false] at hpcs
  refine ⟨_, owner', hw.kernel, hi, ha, ?_, ?_, ?_, hw.saved, hw.running⟩
  · intro t hquiet
    rw [hpcs] at hquiet
    by_cases htp : t = (w.signals.calls c).pid
    · subst htp
      obtain ⟨pc, rest, hsome⟩ := List.exists_cons_of_ne_nil ((hw.status_iff ht).mp hint)
      have hmem : pc ∈ w.signals.handlers (w.signals.calls c).pid := by simp [hsome]
      exact absurd (hquiet pc hmem) (hlook pc hmem)
    · rw [State.waitingAfter, Function.update_of_ne htp]
      exact hw.quiet t hquiet
  · intro t ht hnone
    rw [hpcs] at hnone
    exact hw.idle t ht hnone
  · intro t ht
    rw [hpcs] at ht
    have hh := hw.active t ht
    exact ⟨hh.context, hh.live, hh.saved⟩

/-- A report for a thread that does not run: its handler is entered. -/
theorem WorldInv.accepted [DecidableEq C] {s' : State Tid C}
    (hw : WorldInv board w waiting owner) (hok : Orderly w.signals (.report c true))
    (ht : (w.signals.calls c).pid < w.kernel.count)
    (hcur : w.kernel.currentThread ≠ some (w.signals.calls c).pid)
    (hlive : w.kernel.cpu.live.map Slot.thread ≠ some (w.signals.calls c).pid)
    (haccept : Kernel.rawSchedReportSignal w.kernel (w.signals.calls c).pid = some (k', 0))
    (hs : step w.signals (.report c true) = some s') :
    ∃ waiting' owner', WorldInv board (World.entered
      { w with
        kernel := k'
        signals := s'
        queued := w.signals.queuedAfter w.queued (.report c true) } (w.signals.calls c).pid)
      waiting' owner' := by
  obtain ⟨owner', hi⟩ := step_inv hw.signals hok hs
  have ha := step_accounts hw.signals hw.accounts hok hs
  have hpcs := sigeventReport_handlers hs
  have hnone : w.signals.handlers (w.signals.calls c).pid = [] := hok.1 rfl
  rw [if_pos rfl, hnone] at hpcs
  have hstep : Kernel.step board w.kernel (.reportSignal (w.signals.calls c).pid) = some k' := by
    rw [Kernel.step, if_pos ht, haccept, Option.map_some]
  have hkept := step_live hw.kernel (by simp) hstep
  obtain ⟨L, hL, -⟩ := hw.kernel.reachable.inv
  refine ⟨_, owner', hw.kernel.tail hstep, hi, ha, ?_, ?_, ?_, ?_, ?_⟩
  · intro t hquiet
    change ∀ pc ∈ s'.handlers t, pc.PastLook at hquiet
    rw [hpcs] at hquiet
    by_cases htp : t = (w.signals.calls c).pid
    · subst htp
      rw [Function.update_self] at hquiet
      exact absurd (hquiet .loadHead (by simp)) id
    · rw [Function.update_of_ne htp] at hquiet
      rw [State.waitingAfter, Function.update_of_ne htp]
      exact hw.quiet t hquiet
  · intro t hlt hidle hint
    change s'.handlers t = [] at hidle
    rw [hpcs] at hidle
    by_cases htp : t = (w.signals.calls c).pid
    · subst htp
      rw [Function.update_self] at hidle
      cases hidle
    · rw [Function.update_of_ne htp] at hidle
      rcases Kernel.step_new_int hstep hlt hint with hsame | ⟨hlt', hold⟩
      · exact htp (Kernel.Op.reportSignal.inj hsame).symm
      · exact hw.idle t hlt' hidle hold
  · intro t hactive
    change s'.handlers t ≠ [] at hactive
    by_cases htp : t = (w.signals.calls c).pid
    · subst htp
      refine ⟨⟨_, Kernel.handlerContext_accepted hL hw.kernel.owned ht hcur hlive haccept⟩, ?_, ?_⟩
      · intro howner
        change k'.cpu.live.map Slot.thread = _ at howner
        rw [hkept] at howner
        exact absurd howner hlive
      · intro _
        simp only [World.entered, Function.update_self, hpcs]
        rfl
    · rw [hpcs, Function.update_of_ne htp] at hactive
      have hundisturbed : Kernel.Undisturbed t w.kernel
          (.reportSignal (w.signals.calls c).pid) := ⟨by simp [Kernel.UntilReturn], fun _ => id⟩
      refine (hw.active t hactive).step hw.kernel (by simp) hundisturbed hstep rfl rfl ?_
      have hslot : Slot.intSp t ≠ Slot.intSp (w.signals.calls c).pid := by simpa using htp
      exact Function.update_of_ne hslot ..
  · intro slot context hslot
    by_cases hsame : slot = Slot.intSp (w.signals.calls c).pid
    · subst hsame
      simp only [World.entered, Function.update_self, Option.some.injEq] at hslot
      subst hslot
      rfl
    · simp only [World.entered, Function.update_of_ne hsame] at hslot
      exact hw.saved slot context hslot
  · intro context hrunning
    change k'.cpu.live.map Slot.thread = _
    rw [hkept]
    exact hw.running context hrunning

/-- A loop that has seen its list empty, or has returned, leaves it empty. -/
theorem handlePc_quiet {s s' : State Tid C} {pc : HandlerPc Tid} (hi : Inv s waiting owner)
    (hpcs : s.handlers t = [pc]) (hquiet : pc.PastLook → waiting t = [])
    (hs : s.handlePc t [] pc = some s') (hpast : ∀ pc' ∈ s'.handlers t, pc'.PastLook) :
    taken [pc] (waiting t) = [] := by
  have hloop := hi.loop t
  rw [hpcs] at hloop
  cases pc with
  | loadHead =>
    cases hs
    have hlist : Leaving s.links t none (waiting t) := hloop.list
    have hfirst := hlist.next_head
    rw [setHandlers_self] at hpast
    have hlook := hpast _ (List.mem_singleton.mpr rfl)
    rw [hfirst] at hlook
    change waiting t = []
    cases hxs : waiting t with
    | nil => rfl
    | cons b rest =>
      rw [hxs] at hlook
      exact hlook.elim
  | test pos =>
    cases pos with
    | head v => exact hquiet trivial
    | node b =>
      cases hs
      rw [setHandlers_self] at hpast
      exact (hpast _ (List.mem_singleton.mpr rfl)).elim
  | compare b i =>
    rw [State.handlePc] at hs
    split at hs
    · cases hs
      rw [setHandlers_self] at hpast
      exact (hpast _ (List.mem_singleton.mpr rfl)).elim
    · split at hs <;> cases hs <;> rw [setHandlers_self] at hpast <;>
        exact (hpast _ (List.mem_singleton.mpr rfl)).elim
  | notify b i =>
    obtain ⟨entry, -, hs⟩ := Option.bind_eq_some_iff.mp hs
    cases hs
    rw [setHandlers_self] at hpast
    exact (hpast _ (List.mem_singleton.mpr rfl)).elim
  | free b | unlinkNext b | unlinkPrev b =>
    cases hs
    rw [setHandlers_self] at hpast
    exact (hpast _ (List.mem_singleton.mpr rfl)).elim
  | exit => exact hquiet trivial

theorem handlePc_stays {s s' : State Tid C} {pc : HandlerPc Tid} {outer : List (HandlerPc Tid)}
    (hpc : pc ≠ .exit) (hs : s.handlePc t outer pc = some s') : s'.handlers t ≠ [] := by
  cases pc with
  | test pos =>
    cases pos with
    | head v =>
      rw [State.handlePc] at hs
      split at hs <;> cases hs
      simp
    | node b =>
      cases hs
      simp
  | compare b i =>
    rw [State.handlePc] at hs
    split at hs
    · cases hs
      simp
    · split at hs <;> cases hs <;> simp
  | notify b i =>
    obtain ⟨entry, -, hs⟩ := Option.bind_eq_some_iff.mp hs
    cases hs
    simp
  | exit => exact absurd rfl hpc
  | _ =>
    cases hs
    simp

/-- The thread whose loop the processor executes is the current one. -/
theorem WorldInv.current_of_running (hw : WorldInv board w waiting owner) {depth : Nat}
    (hflag : w.kernel.cpu.threadSwitchInterruptFlag = false)
    (hrunning : w.running = some ⟨t, depth⟩) : w.kernel.currentThread = some t := by
  rw [← hw.kernel.owned.settled hflag]
  exact hw.running _ hrunning

theorem WorldInv.handleQuiet {s' : State Tid C} {pc : HandlerPc Tid}
    (hw : WorldInv board w waiting owner) (hpcs : w.signals.handlers t = [pc])
    (hs : w.signals.handlePc t [] pc = some s') (u : Tid)
    (hpast : ∀ pc ∈ s'.handlers u, pc.PastLook) :
    Function.update waiting t (taken (w.signals.handlers t) (waiting t)) u = [] := by
  by_cases hut : u = t
  · subst hut
    rw [Function.update_self, hpcs]
    refine handlePc_quiet hw.signals hpcs ?_ hs hpast
    intro hpc
    apply hw.quiet u
    rw [hpcs]
    intro pc' hpc'
    rw [List.mem_singleton.mp hpc']
    exact hpc
  · rw [(handlePc_frame hs).handlers u hut] at hpast
    rw [Function.update_of_ne hut]
    exact hw.quiet u hpast

/-- A statement of a loop before its return. -/
theorem WorldInv.loopStep [DecidableEq C] {s' : State Tid C} {pc : HandlerPc Tid}
    (hw : WorldInv board w waiting owner) (hpcs : w.signals.handlers t = [pc]) (hpc : pc ≠ .exit)
    (hs : w.signals.handlePc t [] pc = some s') (hstep : step w.signals (.handle t) = some s') :
    ∃ waiting' owner', WorldInv board { w with signals := s' } waiting' owner' := by
  have horderly : Orderly w.signals (.handle t) := trivial
  obtain ⟨owner', hi⟩ := step_inv hw.signals horderly hstep
  have ha := step_accounts hw.signals hw.accounts horderly hstep
  have hsame : ∀ u, s'.handlers u = [] ↔ w.signals.handlers u = [] := by
    intro u
    by_cases hut : u = t
    · subst hut
      exact iff_of_false (handlePc_stays hpc hs) (by simp [hpcs])
    · rw [(handlePc_frame hs).handlers u hut]
  refine ⟨_, owner', hw.kernel, hi, ha, hw.handleQuiet hpcs hs, ?_, ?_, hw.saved, hw.running⟩
  · intro u hlt hnone
    exact hw.idle u hlt ((hsame u).mp hnone)
  · intro u hactive
    have hh := hw.active u fun hnone => hactive ((hsame u).mpr hnone)
    exact ⟨hh.context, hh.live, hh.saved⟩

/-- The return from a loop. -/
theorem WorldInv.returnStep [DecidableEq C] {s' : State Tid C}
    (hw : WorldInv board w waiting owner) (hpcs : w.signals.handlers t = [.exit])
    (hflag : w.kernel.cpu.threadSwitchInterruptFlag = false)
    (hcur : w.kernel.currentThread = some t)
    (hexit : Kernel.rawPthreadIntExitEntry w.kernel = some k')
    (hs : w.signals.handlePc t [] .exit = some s')
    (hstep : step w.signals (.handle t) = some s') :
    ∃ waiting' owner', WorldInv board { w with kernel := k', signals := s' } waiting' owner' := by
  have horderly : Orderly w.signals (.handle t) := trivial
  obtain ⟨owner', hi⟩ := step_inv hw.signals horderly hstep
  have ha := step_accounts hw.signals hw.accounts horderly hstep
  have hkernel : Kernel.step board w.kernel .intExit = some k' := hexit
  have hlive := step_live hw.kernel (by simp) hkernel
  have hready : (k'.thread t).status = .ready := by
    rw [Kernel.rawPthreadIntExitEntry, hcur] at hexit
    cases hexit
    exact Kernel.State.setStatus_self ..
  have hgone : s'.handlers t = [] := by
    cases hs
    exact setHandlers_self ..
  refine ⟨_, owner', hw.kernel.tail hkernel, hi, ha, hw.handleQuiet hpcs hs, ?_, ?_, hw.saved, ?_⟩
  · intro u hlt hnone hint
    change s'.handlers u = [] at hnone
    by_cases hut : u = t
    · subst hut
      have hint' : (k'.thread u).status = .int := hint
      rw [hready] at hint'
      cases hint'
    · rw [(handlePc_frame hs).handlers u hut] at hnone
      rcases Kernel.step_new_int hkernel hlt hint with hsame | ⟨hlt', hold⟩
      · cases hsame
      · exact hw.idle u hlt' hnone hold
  · intro u hactive
    change s'.handlers u ≠ [] at hactive
    have hut : u ≠ t := by
      rintro rfl
      exact hactive hgone
    rw [(handlePc_frame hs).handlers u hut] at hactive
    have hundisturbed : Kernel.Undisturbed u w.kernel .intExit := by
      refine ⟨fun _ => ⟨?_, hflag⟩, fun _ => id⟩
      rw [hcur]
      exact fun h => hut (Option.some.inj h).symm
    exact (hw.active u hactive).step hw.kernel (by simp) hundisturbed hkernel rfl rfl rfl
  · intro context hrunning
    change k'.cpu.live.map Slot.thread = _
    rw [hlive]
    exact hw.running context hrunning

end PosixRtos.Signal
