import PosixRtos.Kernel.Writes
import PosixRtos.Signal.Accounts

/-! Signals and the scheduler together. A report asks the kernel for a handler
frame; the handler loop runs when the processor loads that frame, and returns
through `__pthread_int_exit_entry`. What a saved stack pointer resumes is kept
track of, since a switch may save a context into the slot of another one. -/
namespace PosixRtos.Signal

open PosixRtos.Library.Rings PosixRtos.Library.Runs PosixRtos.Kernel.IntrusiveList
open Kernel (Tid Slot Board)

/-- What the processor executes: at depth 0 the code of a thread, at depth `n`
the `n`-th of the handler loops that are under way for it. -/
structure Context where
  thread : Tid
  depth : Nat
deriving DecidableEq

structure World (C : Type) where
  kernel : Kernel.State
  signals : State Tid C
  /-- What a stack pointer in memory resumes. -/
  saved : Slot → Option Context
  running : Option Context
  /-- History only: the events for which `sigqueue` has returned 0. -/
  queued : Tid → List Queued

inductive Input (C : Type) where
  | kernel (op : Kernel.Op)
  | sigqueue (c : C) (pid : Tid) (signo value : Int)
  | call (c : C)
  | report (c : C)
  | handle (t : Tid)
  | signal (t : Tid) (signum : Int) (handler : Nat)
deriving DecidableEq

variable {C : Type}

/-- What the stack pointers resume after the registers have been saved. -/
def World.saveRunning (w : World C) : Slot → Option Context :=
  match w.kernel.cpu.interruptFromThread with
  | none => w.saved
  | some slot => Function.update w.saved slot w.running

/-- `PendSV_Handler`, with what the registers execute. -/
def World.pendSV (w : World C) : Option (World C) := do
  let kernel ← Kernel.pendSVHandler w.kernel
  if w.kernel.cpu.threadSwitchInterruptFlag then
    some { w with
      kernel := kernel
      saved := w.saveRunning
      running := w.kernel.cpu.interruptToThread.bind w.saveRunning }
  else some { w with kernel := kernel }

/-- The frame that `__pthread_int_init` has built for the latest loop of `t`. -/
def World.entered (w : World C) (t : Tid) : World C :=
  let context : Context := ⟨t, (w.signals.handlers t).length⟩
  { w with saved := Function.update w.saved (.intSp t) (some context) }

/-- A statement of `signal.c`, with what it has made of the kernel. -/
def World.signalStep [DecidableEq C] (w : World C) (op : Op Tid C) (kernel : Kernel.State) :
    Option (World C) := do
  let signals ← step w.signals op
  some { w with
    kernel := kernel
    signals := signals
    queued := w.signals.queuedAfter w.queued op }

/-- A handler loop goes on only where it is what the processor executes, and no
switch is pending: `PendSV_Handler` comes before the next statement. -/
def worldStep [DecidableEq C] (board : Board) (w : World C) : Input C → Option (World C)
  | .kernel (.reportSignal _) | .kernel .intExit => none
  | .kernel .pendSV => w.pendSV
  | .kernel op => do
      let kernel ← Kernel.step board w.kernel op
      some { w with kernel := kernel }
  | .sigqueue c pid signo value => w.signalStep (.sigqueue c pid signo value) w.kernel
  | .call c => w.signalStep (.call c) w.kernel
  | .signal t signum handler => w.signalStep (.signal t signum handler) w.kernel
  | .report c => do
      let thread := (w.signals.calls c).pid
      let starts := decide ((w.kernel.thread thread).status ≠ .int)
      let kernel ← Kernel.step board w.kernel (.reportSignal thread)
      let w ← w.signalStep (.report c starts) kernel
      some (if starts then w.entered thread else w)
  | .handle t =>
      if w.running = some ⟨t, (w.signals.handlers t).length⟩ ∧ w.signals.handlers t ≠ [] ∧
          w.kernel.cpu.threadSwitchInterruptFlag = false then
        if (w.signals.handlers t).head? = some .exit then do
          let kernel ← Kernel.rawPthreadIntExitEntry w.kernel
          w.signalStep (.handle t) kernel
        else w.signalStep (.handle t) w.kernel
      else none

/-- After `sched_start`, before the first signal. -/
structure Started (board : Board) (w : World C) : Prop where
  kernel : ∃ k₀, Kernel.Reachable board k₀ ∧ k₀.currentThread = none ∧ k₀.cpu.live = none ∧
    Kernel.NoHandler k₀ ∧ Kernel.schedStart k₀ = some w.kernel
  signals : Initial w.signals
  saved : ∀ t, w.saved (.sp t) = some ⟨t, 0⟩ ∧ w.saved (.intSp t) = none
  running : w.running = none
  queued : ∀ t, w.queued t = []

/-- A loop that does not look at its list again before it returns. -/
def HandlerPc.PastLook {T : Type} : HandlerPc T → Prop
  | .test (.head _) | .exit => True
  | _ => False

/-- A block whose flag is clear while a call or a loop is still busy with it. -/
def World.Contended (w : World C) (b : Block) : Prop :=
  (∃ c, (w.signals.calls c).pc = .mark b) ∨
    ∃ t < w.kernel.count, ∃ pc ∈ w.signals.handlers t, pc.released = some b

/-- A report for `t` inserts behind a block that is not half removed. If `t` is
in its handler, then the loop has still to look at the list; if not, then another
thread runs. -/
def World.Reportable (w : World C) (t : Tid) : Prop :=
  (∀ b ∈ leavingOf (w.signals.handlers t), w.signals.links.prev (.head t) ≠ .node b) ∧
    if (w.kernel.thread t).status = .int then ∀ pc ∈ w.signals.handlers t, ¬ pc.PastLook
    else w.kernel.currentThread ≠ some t ∧ w.kernel.cpu.live.map Slot.thread ≠ some t

/-- The condition on the inputs of a run: nothing overwrites the status `INT` of
the running thread, and no call tests the flag of a contended block. -/
def Unhindered (w : World C) : Input C → Prop
  | .kernel op => ∀ t, w.kernel.currentThread = some t → (w.kernel.thread t).status = .int →
      ¬ Kernel.OverwritesInt w.kernel t op
  | .call c => ∀ i < sigEventTable, (w.signals.calls c).pc = .scan i → ¬ w.Contended i
  | .report c => w.Reportable (w.signals.calls c).pid
  | _ => True

/-- The loop of `t` is what `t` executes, or what it resumes when it is next
switched to. -/
structure InHandler (w : World C) (t : Tid) : Prop where
  context : ∃ value, Kernel.HandlerContext w.kernel t value
  live : w.kernel.cpu.live.map Slot.thread = some t → w.running = some ⟨t, 1⟩
  saved : w.kernel.cpu.live.map Slot.thread ≠ some t → w.saved (.intSp t) = some ⟨t, 1⟩

structure WorldInv (board : Board) (w : World C) (waiting : Tid → List Block)
    (owner : Block → Owner Tid C) : Prop where
  kernel : Kernel.StartedRun board anyStep w.kernel
  signals : Inv w.signals waiting owner
  accounts : Accounts w.signals waiting w.queued
  quiet : ∀ t, (∀ pc ∈ w.signals.handlers t, pc.PastLook) → waiting t = []
  idle : ∀ t < w.kernel.count, w.signals.handlers t = [] → (w.kernel.thread t).status ≠ .int
  active : ∀ t, w.signals.handlers t ≠ [] → InHandler w t
  saved : ∀ slot context, w.saved slot = some context → context.thread = slot.thread
  running : ∀ context, w.running = some context →
    w.kernel.cpu.live.map Slot.thread = some context.thread

variable {board : Board} {w w' : World C} {waiting : Tid → List Block}
  {owner : Block → Owner Tid C} {t u : Tid} {c : C} {k' : Kernel.State}

theorem started_inv (hw : Started board w) : WorldInv board w (fun _ => []) (fun _ => .free) where
  kernel := by
    obtain ⟨k₀, hreach, hnone, hlive, -, hstart⟩ := hw.kernel
    exact ⟨k₀, w.kernel, hreach, hnone, hlive, hstart, .refl⟩
  signals := initial_inv hw.signals
  accounts := by
    rw [show w.queued = fun _ => [] from funext hw.queued]
    exact initial_accounts hw.signals
  quiet _ _ := rfl
  idle t ht _ := by
    obtain ⟨k₀, -, -, -, hquiet, hstart⟩ := hw.kernel
    obtain ⟨thread, -, hstart⟩ := Option.bind_eq_some_iff.mp hstart
    rw [← Option.some.inj hstart] at ht ⊢
    exact hquiet t ht
  active t ht := absurd (hw.signals.handlers t) ht
  saved slot context hslot := by
    cases slot with
    | sp t =>
      rw [(hw.saved t).1] at hslot
      cases hslot
      rfl
    | intSp t =>
      rw [(hw.saved t).2] at hslot
      cases hslot
  running context hrunning := by
    rw [hw.running] at hrunning
    cases hrunning

end PosixRtos.Signal
