import PosixRtos.Kernel.Sched

/-! `pthread.c`: attributes, creation and exit of threads, the entry and exit of
a signal handler, and mutexes. -/
namespace PosixRtos.Kernel

open PosixRtos.Library.Rings IntrusiveList

/-- `__ALIGN(size, HW_ALIGN_SIZE)` with `HW_ALIGN_SIZE = 4`. -/
def align (size : BitVec 32) : BitVec 32 := (size + 4 - 1) &&& ~~~(4 - 1)

def physAddrAlign (addr : BitVec 32) : Bool := align addr = addr

def stackFrameBytes : BitVec 32 := 64

/-- `pthread_hw_stack_init` of the port: the stack pointer below the frame. -/
def pthreadHwStackInit (stack : BitVec 32) : BitVec 32 :=
  align (stack + 4) - stackFrameBytes

structure PthreadAttr where
  type : BitVec 8
  initTicks : BitVec 8
  initPrio : BitVec 8
  stkAddr : BitVec 32
  stkSize : BitVec 32
deriving DecidableEq

def ThreadType.ofByte (type : BitVec 8) : Option ThreadType :=
  if type = 0 then some .user
  else if type = 1 then some .idle
  else if type = 2 then some .kernel
  else none

def pthreadStackSizeMin : BitVec 32 := 256

def pthreadPriorityMax : BitVec 8 := 31

def rawPthreadAttrCheck (attr : Option PthreadAttr) : Bool :=
  match attr with
  | none => true
  | some attr =>
      if attr.stkAddr ≠ 0 ∧ physAddrAlign attr.stkAddr = false then false
      else if attr.stkSize < pthreadStackSizeMin then false
      else if pthreadPriorityMax < attr.initPrio then false
      else if attr.initTicks = 0 then false
      else (ThreadType.ofByte attr.type).isSome

/-- `USR_INIT_*_DEFAULT`. -/
def defaultAttr : PthreadAttr where
  type := 0
  initTicks := 1
  initPrio := 16
  stkAddr := 0
  stkSize := 512

/-- What the heap answers to `__pthread_create`: whether there is room for the
`os_pthread`, and the stack it would get (0 for none). -/
structure CreateMemory where
  thread : Bool
  stack : BitVec 32
deriving DecidableEq

def Priority.ofByte (prio : BitVec 8) : Option Priority :=
  if h : prio.toNat < 32 then some ⟨prio.toNat, h⟩ else none

def initThread (attr : PthreadAttr) (type : ThreadType) (prio : Priority) (stkAddr : BitVec 32) :
    Thread where
  type := type
  status := .init
  sp := pthreadHwStackInit (stkAddr + attr.stkSize - 4)
  intSp := 0
  initTicks := attr.initTicks
  curTicks := attr.initTicks
  sleepTicks := 0
  initPrio := prio
  curPrio := prio
  stkAddr := stkAddr
  stkSize := attr.stkSize

/-- The stack that the attributes give, or one from the heap. -/
def createStack (attr : PthreadAttr) (memory : CreateMemory) : BitVec 32 :=
  if attr.stkAddr = 0 then memory.stack else attr.stkAddr

/-- `__pthread_create`. A priority or type outside the checked range has no
ready list; `pthread_create` never passes one. -/
def rawPthreadCreate (k : State) (attr : Option PthreadAttr) (memory : CreateMemory) :
    Option (State × Tid) :=
  let attr := attr.getD defaultAttr
  let stkAddr := createStack attr memory
  if memory.thread = false ∨ stkAddr = 0 then none
  else do
    let type ← ThreadType.ofByte attr.type
    let prio ← Priority.ofByte attr.initPrio
    some ({ k with
      thread := Function.update k.thread k.count (initThread attr type prio stkAddr)
      count := k.count + 1
      links := listInit k.links (.node k.count) }, k.count)

def pthreadCreate (k : State) (attr : Option PthreadAttr) (memory : CreateMemory) :
    State × Int :=
  if rawPthreadAttrCheck attr = false then (k, -EPERM)
  else
    match rawPthreadCreate k attr memory with
    | none => (k, -EAGAIN)
    | some (k, t) => (schedInsertThread k t, 0)

/-- `__pthread_exit_entry`: interrupts stay masked until its end. -/
def rawPthreadExitEntry (k : State) : Option State := do
  let thread ← k.currentThread
  schedDeleteThread k thread

/-- `__pthread_int_exit_entry`. -/
def rawPthreadIntExitEntry (k : State) : Option State := do
  let thread ← k.currentThread
  let k := k.setStatus thread .ready
  some { k with cpu := hwContextSwitchTo k.cpu (.sp thread) }

/-- `__pthread_int_init`: the handler's frame goes below the saved context. -/
def rawPthreadIntInit (k : State) (t : Tid) : State :=
  k.setThread t fun thread => { thread with intSp := pthreadHwStackInit (thread.sp - 8) }

/-- `__sched_report_signal` of `sched.c`. -/
def rawSchedReportSignal (k : State) (t : Tid) : Option (State × Int) :=
  if (k.thread t).status = .int then some (k, -EINVAL)
  else do
    let k ← schedSwitchThread (schedSetThreadInt (rawPthreadIntInit k t) t)
    some (k, 0)

def pthreadMutexInit (k : State) (mutex : Nat) : State :=
  { k with
    ownThread := Function.update k.ownThread mutex none
    links := listInit k.links (.head (.mutexWait mutex)) }

/-- Suspend the thread in a wait list and run another one. -/
def State.suspendOn (k : State) (t : Tid) (waitList : Head) : Option State :=
  schedSwitchThread ((schedSetThreadSuspend k t).insertTail waitList t)

/-- `LIST_FOR_EACH_HEAD_NEXT` with a body that ends in `break`: wake the first
waiter, if there is one. -/
def State.wakeFirst (k : State) (waitList : Head) : Option State :=
  match k.headEntry waitList with
  | none => some k
  | some t => schedSwitchThread (schedSetThreadReady k t)

/-- `__pthread_mutex_lock`, one attempt. A thread that gets `-EAGAIN` was
suspended, and sees the result when it runs again. -/
def rawPthreadMutexLock (k : State) (mutex : Nat) : Option (State × Int) :=
  match k.currentThread with
  | none => some (k, 0)
  | some thread =>
      match k.ownThread mutex with
      | none => some ({ k with ownThread := Function.update k.ownThread mutex (some thread) }, 0)
      | some owner =>
          if thread = owner then some (k, -EDEADLK)
          else do
            let k ← k.suspendOn thread (.mutexWait mutex)
            some (k, -EAGAIN)

def mutexRecursiveMax : Nat := 128

def pthreadMutexUnlock (k : State) (mutex : Nat) : Option (State × Int) :=
  match k.currentThread with
  | none => some (k, 0)
  | some thread =>
      if k.ownThread mutex = some thread then do
        let k := { k with ownThread := Function.update k.ownThread mutex none }
        let k ← k.wakeFirst (.mutexWait mutex)
        some (k, 0)
      else some (k, -EINVAL)

end PosixRtos.Kernel
