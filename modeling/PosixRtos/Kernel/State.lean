import PosixRtos.Kernel.IntrusiveList

/-! The data of the scheduler, of mutexes and of semaphores, and the words that
the context switch shares with the assembly port. A function of the source
whose name starts with two underscores carries the prefix `raw` here. -/
namespace PosixRtos.Kernel

open PosixRtos.Library.Rings IntrusiveList

/-- Which `os_pthread` object; the kernel never frees one. -/
abbrev Tid := Nat

/-- `PTHREAD_READY_GROUP_MAX` priorities; `__pthread_attr_check` admits no other. -/
abbrev Priority := Fin 32

instance neZeroPriorities : @NeZero Nat Zero.ofOfNat0 32 := ⟨by decide⟩

/-- `PTHREAD_STATE_*`. -/
inductive Status where
  | init
  | ready
  | suspend
  | sleep
  | closed
  | int
deriving DecidableEq

/-- `PTHREAD_TYPE_*`. -/
inductive ThreadType where
  | user
  | idle
  | kernel
deriving DecidableEq

/-- The list heads that a thread's `list` node can be linked to. -/
inductive Head where
  | ready (prio : Priority)
  | sleep
  | delete
  | mutexWait (mutex : Nat)
  | semWait (sem : Nat)
deriving DecidableEq

abbrev Node := Cell Head Tid

/-- `sched.thread_list` and the `tlist` nodes. -/
abbrev TNode := Cell Unit Tid

/-- The fields of `os_pthread` that scheduling uses; `list` and `tlist` are in
the link memories. -/
structure Thread where
  type : ThreadType
  status : Status
  sp : BitVec 32
  intSp : BitVec 32
  initTicks : BitVec 8
  curTicks : BitVec 8
  sleepTicks : BitVec 16
  initPrio : Priority
  curPrio : Priority
  stkAddr : BitVec 32
  stkSize : BitVec 32

/-- The address `&thread->sp` or `&thread->int_sp`. -/
inductive Slot where
  | sp (thread : Tid)
  | intSp (thread : Tid)
deriving DecidableEq

def Slot.thread : Slot → Tid
  | .sp t => t
  | .intSp t => t

/-- The three words shared with `text_switch.s`, and the processor itself:
`live` names the context in the registers by the slot it was loaded from, and
is `none` for the start-up context. The flag is only ever 0 or 1. -/
structure Cpu where
  threadSwitchInterruptFlag : Bool
  interruptFromThread : Option Slot
  interruptToThread : Option Slot
  live : Option Slot
  psp : BitVec 32

structure Usage where
  minTicks : BitVec 16
  curTicks : BitVec 16
  runCount : BitVec 16
  usage : BitVec 16

structure Sem where
  initValue : Nat
  value : Nat
deriving DecidableEq

/-- `RTOS_SYS_TICK_PERIOD`, a constant of the board's `hw_def.h`. -/
structure Board where
  tickPeriod : Nat
  positive : 0 < tickPeriod

structure State where
  links : Links Node
  tlinks : Links TNode
  thread : Tid → Thread
  /-- Threads `0 .. count - 1` have been created. -/
  count : Nat
  threadReadyGroup : BitVec 32
  currentThread : Option Tid
  usage : Usage
  locked : BitVec 32
  ownThread : Nat → Option Tid
  sem : Nat → Sem
  cpu : Cpu
  /-- History only, read by no function: the threads put at the tail of a ready
  list, latest first. -/
  enqueued : List Tid

/-- A thread that waits in a ready list, in its normal context or in a handler. -/
def State.Runnable (k : State) (t : Tid) : Prop :=
  (k.thread t).status = .ready ∨ (k.thread t).status = .int

instance (k : State) (t : Tid) : Decidable (k.Runnable t) :=
  inferInstanceAs (Decidable (_ ∨ _))

def State.setThread (k : State) (t : Tid) (f : Thread → Thread) : State :=
  { k with thread := Function.update k.thread t (f (k.thread t)) }

@[simp] theorem State.setThread_self (k : State) (t : Tid) (f : Thread → Thread) :
    (k.setThread t f).thread t = f (k.thread t) := Function.update_self ..

theorem State.setThread_of_ne (k : State) {t u : Tid} (hut : u ≠ t) (f : Thread → Thread) :
    (k.setThread t f).thread u = k.thread u := Function.update_of_ne hut ..

/-- A field that the change leaves alone is the same in every thread. -/
theorem State.setThread_field (k : State) (t : Tid) (f : Thread → Thread) (field : Thread → β)
    (hfield : ∀ x, field (f x) = field x) (u : Tid) :
    field ((k.setThread t f).thread u) = field (k.thread u) := by
  by_cases hut : u = t
  · rw [hut, State.setThread_self, hfield]
  · rw [State.setThread_of_ne k hut]

def State.setStatus (k : State) (t : Tid) (status : Status) : State :=
  k.setThread t fun thread => { thread with status := status }

@[simp] theorem State.setStatus_self (k : State) (t : Tid) (status : Status) :
    ((k.setStatus t status).thread t).status = status := by
  simp [State.setStatus]

theorem State.setStatus_of_ne (k : State) {t u : Tid} (hut : u ≠ t) (status : Status) :
    (k.setStatus t status).thread u = k.thread u := k.setThread_of_ne hut _

@[simp] theorem State.setStatus_prio (k : State) (t : Tid) (status : Status) (u : Tid) :
    ((k.setStatus t status).thread u).curPrio = (k.thread u).curPrio :=
  k.setThread_field t (fun thread => { thread with status := status }) Thread.curPrio
    (fun _ => rfl) u

@[simp] theorem State.setStatus_sp (k : State) (t : Tid) (status : Status) (u : Tid) :
    ((k.setStatus t status).thread u).sp = (k.thread u).sp :=
  k.setThread_field t (fun thread => { thread with status := status }) Thread.sp (fun _ => rfl) u

/-- `LIST_HEAD_ENTRY`; `none` where the entry would be a list head taken for a
thread. -/
def State.headEntry (k : State) (head : Head) : Option Tid :=
  match k.links.next (.head head) with
  | .node t => some t
  | .head _ => none

def State.loadSlot (k : State) : Slot → BitVec 32
  | .sp t => (k.thread t).sp
  | .intSp t => (k.thread t).intSp

def State.storeSlot (k : State) (slot : Slot) (value : BitVec 32) : State :=
  match slot with
  | .sp t => k.setThread t fun thread => { thread with sp := value }
  | .intSp t => k.setThread t fun thread => { thread with intSp := value }

def EPERM : Int := 1
def EAGAIN : Int := 11
def EINVAL : Int := 22
def EDEADLK : Int := 35

end PosixRtos.Kernel
