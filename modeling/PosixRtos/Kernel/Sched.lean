import PosixRtos.Kernel.State

/-! `sched.c`, the context switch of the Cortex-M7 port and `msleep`. A result
`none` is a step that the source does not define: a list head or a null pointer
used as a thread. -/
namespace PosixRtos.Kernel

open PosixRtos.Library.Rings IntrusiveList

/-- `hw_context_switch`. With the flag already set only the target changes. -/
def hwContextSwitch (cpu : Cpu) (fromThread toThread : Slot) : Cpu :=
  if cpu.threadSwitchInterruptFlag then
    { cpu with interruptToThread := some toThread }
  else
    { cpu with
      threadSwitchInterruptFlag := true
      interruptFromThread := some fromThread
      interruptToThread := some toThread }

/-- `hw_context_switch_to`: the live context is not going to be saved. -/
def hwContextSwitchTo (cpu : Cpu) (toThread : Slot) : Cpu :=
  { cpu with
    interruptToThread := some toThread
    interruptFromThread := none
    threadSwitchInterruptFlag := true }

/-- The eight words `r4 - r11` that `PendSV_Handler` pushes and pops. -/
def savedRegisterBytes : BitVec 32 := 32

def pendSVHandler (k : State) : Option State :=
  if k.cpu.threadSwitchInterruptFlag then
    let k := { k with cpu := { k.cpu with threadSwitchInterruptFlag := false } }
    let k := match k.cpu.interruptFromThread with
      | none => k
      | some slot => k.storeSlot slot (k.cpu.psp - savedRegisterBytes)
    match k.cpu.interruptToThread with
    | none => none
    | some slot =>
        some { k with cpu := { k.cpu with
          live := some slot
          psp := k.loadSlot slot + savedRegisterBytes } }
  else some k

def schedPriorityRemapTable : List Nat :=
  [0, 0, 1, 1, 2, 2, 2, 2, 3, 3, 3, 3, 3, 3, 3, 3,
   4, 4, 4, 4, 4, 4, 4, 4, 4, 4, 4, 4, 4, 4, 4, 4,
   5, 5, 5, 5, 5, 5, 5, 5, 5, 5, 5, 5, 5, 5, 5, 5,
   5, 5, 5, 5, 5, 5, 5, 5, 5, 5, 5, 5, 5, 5, 5, 5,
   6, 6, 6, 6, 6, 6, 6, 6, 6, 6, 6, 6, 6, 6, 6, 6,
   6, 6, 6, 6, 6, 6, 6, 6, 6, 6, 6, 6, 6, 6, 6, 6,
   6, 6, 6, 6, 6, 6, 6, 6, 6, 6, 6, 6, 6, 6, 6, 6,
   6, 6, 6, 6, 6, 6, 6, 6, 6, 6, 6, 6, 6, 6, 6, 6,
   7, 7, 7, 7, 7, 7, 7, 7, 7, 7, 7, 7, 7, 7, 7, 7,
   7, 7, 7, 7, 7, 7, 7, 7, 7, 7, 7, 7, 7, 7, 7, 7,
   7, 7, 7, 7, 7, 7, 7, 7, 7, 7, 7, 7, 7, 7, 7, 7,
   7, 7, 7, 7, 7, 7, 7, 7, 7, 7, 7, 7, 7, 7, 7, 7,
   7, 7, 7, 7, 7, 7, 7, 7, 7, 7, 7, 7, 7, 7, 7, 7,
   7, 7, 7, 7, 7, 7, 7, 7, 7, 7, 7, 7, 7, 7, 7, 7,
   7, 7, 7, 7, 7, 7, 7, 7, 7, 7, 7, 7, 7, 7, 7, 7,
   7, 7, 7, 7, 7, 7, 7, 7, 7, 7, 7, 7, 7, 7, 7, 7]

def schedGetHighestReadyGroup (readGroup : BitVec 32) : Nat :=
  if readGroup &&& 0xff000000#32 ≠ 0 then
    schedPriorityRemapTable.getD (readGroup >>> 24).toNat 0 + 24
  else if readGroup &&& 0x00ff0000#32 ≠ 0 then
    schedPriorityRemapTable.getD (readGroup >>> 16).toNat 0 + 16
  else if readGroup &&& 0x0000ff00#32 ≠ 0 then
    schedPriorityRemapTable.getD (readGroup >>> 8).toNat 0 + 8
  else
    schedPriorityRemapTable.getD readGroup.toNat 0

/-- The thread that `sched_start` and `sched_switch_thread` pick. -/
def State.highestReadyThread (k : State) : Option Tid :=
  k.headEntry (.ready (Fin.ofNat 32 (schedGetHighestReadyGroup k.threadReadyGroup)))

def schedStart (k : State) : Option State := do
  let thread ← k.highestReadyThread
  some { k with
    currentThread := some thread
    cpu := hwContextSwitchTo k.cpu (.sp thread) }

/-- Where a switch saves and loads the context of a thread. -/
def State.contextSlot (k : State) (t : Tid) : Slot :=
  if (k.thread t).status = .int then .intSp t else .sp t

def schedSwitchThread (k : State) : Option State := do
  let toThread ← k.highestReadyThread
  let fromThread ← k.currentThread
  if toThread ≠ fromThread then
    some { k with
      currentThread := some toThread
      cpu := hwContextSwitch k.cpu (k.contextSlot fromThread) (k.contextSlot toThread) }
  else some k

/-- The common body of `sched_set_thread_ready` and `sched_set_thread_int`. -/
def State.enqueueReady (k : State) (t : Tid) (status : Status) : State :=
  let prio := (k.thread t).curPrio
  let links := listRemoveNode k.links (.node t)
  { k with
    links := listInsertTail links (.head (.ready prio)) (.node t)
    threadReadyGroup := k.threadReadyGroup ||| (1#32 <<< prio.val)
    thread := Function.update k.thread t { k.thread t with status := status }
    enqueued := t :: k.enqueued }

@[simp] theorem State.enqueueReady_thread (k : State) (t : Tid) (status : Status) :
    (k.enqueueReady t status).thread = (k.setStatus t status).thread := rfl

def schedSetThreadReady (k : State) (t : Tid) : State := k.enqueueReady t .ready

def schedSetThreadInt (k : State) (t : Tid) : State := k.enqueueReady t .int

/-- The common start of `sched_set_thread_suspend`, `_sleep` and `_close`: the
group bit is cleared if the thread's ready list has become empty. -/
def State.leaveReady (k : State) (t : Tid) : State :=
  let prio := (k.thread t).curPrio
  let links := listRemoveNode k.links (.node t)
  { k with
    links := links
    threadReadyGroup :=
      if listIsEmpty links (.head (.ready prio)) then
        k.threadReadyGroup &&& ~~~(1#32 <<< prio.val)
      else k.threadReadyGroup }

def State.insertTail (k : State) (head : Head) (t : Tid) : State :=
  { k with links := listInsertTail k.links (.head head) (.node t) }

@[simp] theorem State.insertTail_leaveReady_thread (k : State) (head : Head) (t : Tid)
    (status : Status) : (((k.leaveReady t).insertTail head t).setStatus t status).thread =
      (k.setStatus t status).thread := rfl

def schedSetThreadSuspend (k : State) (t : Tid) : State :=
  (k.leaveReady t).setStatus t .suspend

def schedSetThreadSleep (k : State) (t : Tid) : State :=
  ((k.leaveReady t).insertTail .sleep t).setStatus t .sleep

def schedSetThreadClose (k : State) (t : Tid) : State :=
  (k.leaveReady t).setStatus t .closed

def schedReclaimThread (k : State) (t : Tid) : State :=
  (schedSetThreadClose k t).insertTail .delete t

def schedDeleteThread (k : State) (t : Tid) : Option State :=
  let k := { k with tlinks := listRemoveNode k.tlinks (.node t) }
  schedSwitchThread (schedReclaimThread k t)

def schedInsertThread (k : State) (t : Tid) : State :=
  schedSetThreadReady { k with tlinks := listInsertTail k.tlinks (.head ()) (.node t) } t

/-- The body of the loop over `thread_sleep_list`. -/
def wakeupEntry (pos : Node) (k : State) : Option State :=
  match pos with
  | .head _ => none
  | .node t =>
      let k := k.setThread t fun thread => { thread with sleepTicks := thread.sleepTicks - 1 }
      some (if (k.thread t).sleepTicks = 0 then schedSetThreadReady k t else k)

def schedWakeupSleepThread (k : State) : Option State :=
  listForEachEntrySafe State.links (.head .sleep) wakeupEntry (k.count + 1) k

def schedPeriod : Nat := 1000

def schedProcCpuUsage (board : Board) (k : State) : Option State := do
  let thread ← k.currentThread
  let usage := { k.usage with curTicks := k.usage.curTicks + 1 }
  let usage :=
    if (k.thread thread).type ≠ .idle then
      { usage with
        runCount := usage.runCount + BitVec.ofNat 16 (schedPeriod / board.tickPeriod) }
    else usage
  if usage.minTicks ≤ usage.curTicks then
    some { k with usage := { usage with
      usage := usage.runCount / usage.minTicks
      runCount := 0
      curTicks := 0 } }
  else some { k with usage := usage }

def schedProcCurrentThread (k : State) : Option State := do
  let thread ← k.currentThread
  let k := k.setThread thread fun t => { t with curTicks := t.curTicks - 1 }
  some (if (k.thread thread).curTicks = 0 then schedSetThreadReady k thread else k)

def schedIsLocked : BitVec 32 := 1

def schedProc (board : Board) (k : State) : Option State :=
  if k.locked = schedIsLocked then some k
  else do
    let k ← schedProcCurrentThread k
    let k ← schedWakeupSleepThread k
    let k ← schedSwitchThread k
    schedProcCpuUsage board k

/-- The initialised heads; `thread_list` lives in the other link memory. -/
def schedInitLinks (links : Links Node) : Links Node :=
  let links := (List.finRange 32).foldl (fun l p => listInit l (.head (.ready p))) links
  let links := listInit links (.head .sleep)
  listInit links (.head .delete)

def schedInit (board : Board) (k : State) : State :=
  { k with
    threadReadyGroup := 0
    currentThread := none
    locked := 0
    links := schedInitLinks k.links
    tlinks := listInit k.tlinks (.head ())
    usage := ⟨BitVec.ofNat 16 (schedPeriod / board.tickPeriod), 0, 0, 0⟩ }

/-- The first masked section of `sched_yield`. -/
def schedYieldRequeue (k : State) : Option State := do
  let thread ← k.currentThread
  some (schedSetThreadReady k thread)

def schedYield (k : State) : Option State := do
  let k ← schedYieldRequeue k
  schedSwitchThread k

def schedSuspend (k : State) : State × BitVec 32 :=
  ({ k with locked := schedIsLocked }, k.locked)

def schedRecover (k : State) (state : BitVec 32) : State := { k with locked := state }

/-- `msleep` of `unistd.c`; `sleep_ticks` is a 16-bit field. -/
def msleep (board : Board) (k : State) (milliseconds : BitVec 32) :
    Option (State × BitVec 32) :=
  match k.currentThread with
  | none => some (k, 0)
  | some thread => do
      let ticks := milliseconds.toNat / board.tickPeriod
      let k := k.setThread thread fun t =>
        { t with sleepTicks := BitVec.ofNat 16 (if ticks ≠ 0 then ticks else 1) }
      let k ← schedSwitchThread (schedSetThreadSleep k thread)
      some (k, milliseconds)

end PosixRtos.Kernel
