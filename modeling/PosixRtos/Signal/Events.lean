import PosixRtos.Kernel.Removal
import PosixRtos.Kernel.State
import PosixRtos.Library.Runs

/-! `signal.c`, statement by statement. The event blocks of `sigevent_table`
are shared by all `sigqueue` calls and all handler loops; `sigevent_mutex`
orders the calls among themselves, but `__sigevent_free` and the removal of a
block from its list take no lock and mask nothing. The machine lets any call
and any loop go on at any time, so that its runs are all the interleavings,
whatever the mutex and the scheduler add. Which loop a report starts is the
kernel's to say, and so an input of this machine. -/
namespace PosixRtos.Signal

open PosixRtos.Library.Rings PosixRtos.Library.Runs PosixRtos.Kernel.IntrusiveList

/-- An index into `sigevent_table`. -/
abbrev Block := Nat

def sigEventTable : Nat := 32

/-- What `signal` puts into the `sig_list` of a thread. -/
structure Registration where
  signum : Int
  handler : Nat
deriving DecidableEq

/-- A call `sigev_notify_function(sigev_value)`. -/
structure Notification where
  handler : Nat
  value : Int
deriving DecidableEq

/-- The next statement of a `sigqueue` call, `__sigevent_alloc` inlined. -/
inductive CallPc where
  | returned (result : Option Int)
  | lock
  | scan (i : Block)
  | mark (i : Block)
  | unlock (sigevent : Option Block)
  | storeSigno (sigevent : Block)
  | storeValue (sigevent : Block)
  | report (sigevent : Block)
deriving DecidableEq

structure Call (T : Type) where
  pid : T
  signo : Int
  value : Int
  pc : CallPc
deriving DecidableEq

/-- The next statement of `__sigevent_handle`; `exit` is `__pthread_int_exit_entry`,
where the loop returns to. `sig` counts the entries of `sig_list` passed so far. -/
inductive HandlerPc (T : Type) where
  | loadHead
  | test (sigevent : Cell T Block)
  | compare (sigevent : Block) (sig : Nat)
  | notify (sigevent : Block) (sig : Nat)
  | free (sigevent : Block)
  | unlinkNext (sigevent : Block)
  | unlinkPrev (sigevent : Block)
  | exit
deriving DecidableEq

/-- `handlers t` are the handler loops of `t`, the latest first. -/
structure State (T C : Type) where
  flag : Block → Bool
  signo : Block → Int
  value : Block → Int
  links : Links (Cell T Block)
  sigList : T → List Registration
  calls : C → Call T
  handlers : T → List (HandlerPc T)
  notified : T → List Notification

variable {T C : Type}

def State.setCall [DecidableEq C] (s : State T C) (c : C) (pc : CallPc) : State T C :=
  { s with calls := Function.update s.calls c { s.calls c with pc := pc } }

theorem setCall_self [DecidableEq C] (s : State T C) (c : C) (pc : CallPc) :
    ((s.setCall c pc).calls c).pc = pc := by
  simp [State.setCall]

theorem setCall_of_ne [DecidableEq C] (s : State T C) {c d : C} (hne : d ≠ c) (pc : CallPc) :
    (s.setCall c pc).calls d = s.calls d := Function.update_of_ne hne ..

def State.setHandlers [DecidableEq T] (s : State T C) (t : T) (pcs : List (HandlerPc T)) :
    State T C :=
  { s with handlers := Function.update s.handlers t pcs }

@[simp] theorem setHandlers_self [DecidableEq T] (s : State T C) (t : T)
    (pcs : List (HandlerPc T)) : (s.setHandlers t pcs).handlers t = pcs :=
  Function.update_self ..

theorem setHandlers_of_ne [DecidableEq T] (s : State T C) {t u : T} (hne : u ≠ t)
    (pcs : List (HandlerPc T)) : (s.setHandlers t pcs).handlers u = s.handlers u :=
  Function.update_of_ne hne ..

variable [DecidableEq T] [DecidableEq C]

/-- `sigqueue` is called, by a caller that is in no other call. -/
def State.sigqueue (s : State T C) (c : C) (pid : T) (signo value : Int) : Option (State T C) :=
  match (s.calls c).pc with
  | .returned _ => some { s with calls := Function.update s.calls c ⟨pid, signo, value, .lock⟩ }
  | _ => none

/-- The statements of `sigqueue` up to `__sigevent_report`. -/
def State.callStep (s : State T C) (c : C) : Option (State T C) :=
  match (s.calls c).pc with
  | .returned _ => none
  | .lock => some (s.setCall c (.scan 0))
  | .scan i =>
      if i < sigEventTable then
        if s.flag i then some (s.setCall c (.scan (i + 1))) else some (s.setCall c (.mark i))
      else some (s.setCall c (.unlock none))
  | .mark i =>
      let s := { s with flag := Function.update s.flag i true }
      some (s.setCall c (.unlock (some i)))
  | .unlock none => some (s.setCall c (.returned (some Kernel.EAGAIN)))
  | .unlock (some sigevent) => some (s.setCall c (.storeSigno sigevent))
  | .storeSigno sigevent =>
      let s := { s with signo := Function.update s.signo sigevent (s.calls c).signo }
      some (s.setCall c (.storeValue sigevent))
  | .storeValue sigevent =>
      let s := { s with value := Function.update s.value sigevent (s.calls c).value }
      some (s.setCall c (.report sigevent))
  | .report _ => none

/-- `__sigevent_report`, with interrupts masked, and the return of `sigqueue`.
`__sched_report_signal` starts a handler loop, or refuses. -/
def State.sigeventReport (s : State T C) (c : C) (starts : Bool) : Option (State T C) :=
  match (s.calls c).pc with
  | .report sigevent =>
      let thread := (s.calls c).pid
      let s := { s with links := listInsertTail s.links (.head thread) (.node sigevent) }
      let s := if starts then s.setHandlers thread (.loadHead :: s.handlers thread) else s
      some (s.setCall c (.returned (some 0)))
  | _ => none

/-- One statement of `__sigevent_handle(t)`; `outer` are the loops it interrupted. -/
def State.handlePc (s : State T C) (t : T) (outer : List (HandlerPc T)) :
    HandlerPc T → Option (State T C)
  | .loadHead => some (s.setHandlers t (.test (s.links.next (.head t)) :: outer))
  | .test (.head u) => if u = t then some (s.setHandlers t (.exit :: outer)) else none
  | .test (.node sigevent) => some (s.setHandlers t (.compare sigevent 0 :: outer))
  | .compare sigevent sig =>
      match (s.sigList t)[sig]? with
      | none => some (s.setHandlers t (.free sigevent :: outer))
      | some entry =>
          if entry.signum = s.signo sigevent then
            some (s.setHandlers t (.notify sigevent sig :: outer))
          else some (s.setHandlers t (.compare sigevent (sig + 1) :: outer))
  | .notify sigevent sig => do
      let entry ← (s.sigList t)[sig]?
      let call : Notification := ⟨entry.handler, s.value sigevent⟩
      let s := { s with notified := Function.update s.notified t (s.notified t ++ [call]) }
      some (s.setHandlers t (.compare sigevent (sig + 1) :: outer))
  | .free sigevent =>
      let s := { s with flag := Function.update s.flag sigevent false }
      some (s.setHandlers t (.unlinkNext sigevent :: outer))
  | .unlinkNext sigevent =>
      let s := { s with links := unlinkNext s.links (.node sigevent) }
      some (s.setHandlers t (.unlinkPrev sigevent :: outer))
  | .unlinkPrev sigevent =>
      let s := { s with links := unlinkPrev s.links (.node sigevent) }
      some (s.setHandlers t (.loadHead :: outer))
  | .exit => some (s.setHandlers t outer)

def State.handleStep (s : State T C) (t : T) : Option (State T C) :=
  match s.handlers t with
  | [] => none
  | pc :: outer => s.handlePc t outer pc

/-- `signal`, called by `t`: the masked insertion into its `sig_list`. -/
def State.signal (s : State T C) (t : T) (signum : Int) (handler : Nat) : State T C :=
  { s with sigList := Function.update s.sigList t (s.sigList t ++ [⟨signum, handler⟩]) }

inductive Op (T C : Type) where
  | sigqueue (c : C) (pid : T) (signo value : Int)
  | call (c : C)
  | report (c : C) (starts : Bool)
  | handle (t : T)
  | signal (t : T) (signum : Int) (handler : Nat)
deriving DecidableEq

def step (s : State T C) : Op T C → Option (State T C)
  | .sigqueue c pid signo value => s.sigqueue c pid signo value
  | .call c => s.callStep c
  | .report c starts => s.sigeventReport c starts
  | .handle t => s.handleStep t
  | .signal t signum handler => some (s.signal t signum handler)

/-- After `signal_init` and `__pthread_create`: all blocks are free, all lists
empty, and no call or handler is under way. -/
structure Initial (s : State T C) : Prop where
  flag : ∀ b, s.flag b = false
  list : ∀ t, s.links.Ring (.head t) []
  calls : ∀ c, (s.calls c).pc = .returned none
  handlers : ∀ t, s.handlers t = []
  notified : ∀ t, s.notified t = []

/-! What a statement counter says about the block it is busy with. -/

/-- The block that a call has chosen. -/
def CallPc.block : CallPc → Option Block
  | .mark i => some i
  | .unlock sigevent => sigevent
  | .storeSigno sigevent | .storeValue sigevent | .report sigevent => some sigevent
  | .returned _ | .lock | .scan _ => none

/-- The block that a call has reserved: its flag is set. -/
def CallPc.reserved : CallPc → Option Block
  | .mark _ => none
  | pc => pc.block

/-- The block that a handler loop is busy with. -/
def HandlerPc.block : HandlerPc T → Option Block
  | .compare sigevent _ | .notify sigevent _ | .free sigevent | .unlinkNext sigevent
  | .unlinkPrev sigevent => some sigevent
  | .loadHead | .test _ | .exit => none

/-- The block that a handler loop is busy with, while it is still linked. -/
def HandlerPc.front : HandlerPc T → Option Block
  | .unlinkPrev _ => none
  | pc => pc.block

/-- The block that a handler loop has half removed. -/
def HandlerPc.leaving : HandlerPc T → Option Block
  | .unlinkPrev sigevent => some sigevent
  | _ => none

/-- The block of a handler loop that is past `__sigevent_free`. -/
def HandlerPc.released : HandlerPc T → Option Block
  | .unlinkNext sigevent | .unlinkPrev sigevent => some sigevent
  | _ => none

/-- The block of a thread's list that is between the two stores of its removal. -/
def leavingOf (pcs : List (HandlerPc T)) : Option Block := pcs.head?.bind HandlerPc.leaving

/-- The linked block that the loop of a thread is busy with. -/
def frontOf (pcs : List (HandlerPc T)) : Option Block := pcs.head?.bind HandlerPc.front

def blockOf (pcs : List (HandlerPc T)) : Option Block := pcs.head?.bind HandlerPc.block

def releasedOf (pcs : List (HandlerPc T)) : Option Block := pcs.head?.bind HandlerPc.released

end PosixRtos.Signal
