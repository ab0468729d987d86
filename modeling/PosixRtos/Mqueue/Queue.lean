import PosixRtos.Kernel.Semaphore
import PosixRtos.Library.ByteMemory

/-! `mqueue.c`. The buffer is a row of slots in byte-addressed memory: a slot is
an `mq_msg_t`, the words `msg_size` and `used`, followed by `mq_msgsize` bytes.
The semaphore and the two mutexes of a queue are objects of the kernel. -/
namespace PosixRtos.Mqueue

open PosixRtos.Kernel PosixRtos.Library.ByteMemory

def sizeofMqMsg : Nat := 8

def mqMsgSizeMax : Int := 32

def mqMsgNumMax : Int := 16

def O_CREAT : BitVec 32 := 1 <<< 3

def O_NONBLOCK : BitVec 32 := 1 <<< 4

/-- The conversion of a `long` to `size_t`. -/
def sizeT (n : Int) : Nat := (n % 2 ^ 32).toNat

/-- The fields are of type `long`. -/
structure MqAttr where
  mqFlags : BitVec 32
  mqMaxmsg : Int
  mqMsgsize : Int
  mqCurmsgs : Int

/-- Which kernel objects are embedded in the queue object. -/
structure MqObjects where
  sem : Nat
  rMutex : Nat
  wMutex : Nat

structure Mq where
  mqPbuf : Nat
  mqPbufSize : Nat
  sendPtr : Nat
  recvPtr : Nat
  mqAttr : MqAttr
  objects : MqObjects

structure MqState where
  kernel : State
  mem : Memory
  mq : Mq

def Mq.blocking (mq : Mq) : Bool := mq.mqAttr.mqFlags &&& O_NONBLOCK = 0

/-- The queue object as `mq_open` fills it in. -/
def Mq.initialized (mqAttr : MqAttr) (flag : BitVec 32) (buffer size : Nat) (objects : MqObjects) :
    Mq where
  mqPbuf := buffer
  mqPbufSize := size
  sendPtr := buffer
  recvPtr := buffer
  mqAttr := { mqAttr with mqFlags := flag, mqCurmsgs := 0 }
  objects := objects

/-- The product of the two `long`s, which wraps around. -/
def MqAttr.product (mqAttr : MqAttr) : Int :=
  (BitVec.ofInt 32 (mqAttr.mqMaxmsg * mqAttr.mqMsgsize)).toInt

/-- `mq_open`. `buffer` and `objects` are what the heap answers to the two
requests. -/
def mqOpen (k : State) (mem : Memory) (name : Bool) (flag mode : BitVec 32) (mqAttr : MqAttr)
    (buffer : Option Nat) (objects : Option MqObjects) : Except Int MqState :=
  if name = false ∨ flag &&& O_CREAT = 0 then .error EINVAL
  else if mode ≠ flag then .error EINVAL
  else if mqMsgSizeMax * mqMsgNumMax < mqAttr.product then .error EINVAL
  else
    let size := (sizeofMqMsg + sizeT mqAttr.mqMsgsize) * sizeT mqAttr.mqMaxmsg % 2 ^ 32
    match buffer, objects with
    | none, _ => .error EINVAL
    | some _, none => .error EINVAL
    | some buffer, some objects =>
        let mq := Mq.initialized mqAttr flag buffer size objects
        let (k, ret) :=
          if mq.blocking then semInit k objects.sem (sizeT mqAttr.mqMaxmsg) else (k, 0)
        if ret ≠ 0 then .error EINVAL
        else
          let k := pthreadMutexInit k objects.rMutex
          let k := pthreadMutexInit k objects.wMutex
          .ok ⟨k, write mem buffer (List.replicate size 0), mq⟩

theorem MqAttr.product_eq {mqAttr : MqAttr} (hlow : -2 ^ 31 ≤ mqAttr.mqMaxmsg * mqAttr.mqMsgsize)
    (hhigh : mqAttr.mqMaxmsg * mqAttr.mqMsgsize < 2 ^ 31) :
    mqAttr.product = mqAttr.mqMaxmsg * mqAttr.mqMsgsize := by
  unfold MqAttr.product
  rw [BitVec.toInt_ofInt]
  exact Int.bmod_eq_of_le (by omega) (by omega)

theorem eq_ok_of_toOption {answer : Except ε α} {a : α} (h : answer.toOption = some a) :
    answer = .ok a := by
  cases answer with
  | error e => cases h
  | ok a' =>
    cases h
    rfl

/-- The next slot, or the first one past the end of the buffer. Pointers are of
32 bits. -/
def Mq.nextSlot (mq : Mq) (p : Nat) : Nat :=
  let p := (p + sizeT mq.mqAttr.mqMsgsize + sizeofMqMsg) % 2 ^ 32
  if (mq.mqPbuf + mq.mqPbufSize) % 2 ^ 32 ≤ p then mq.mqPbuf else p

/-- The part of `mq_send` between the lock and `sem_post`. -/
def mqEnqueue (mem : Memory) (mq : Mq) (msg : List Byte) : Memory × Mq × Int :=
  if mq.mqAttr.mqMaxmsg ≤ mq.mqAttr.mqCurmsgs then (mem, mq, -EINVAL)
  else if sizeT mq.mqAttr.mqMsgsize < msg.length then (mem, mq, -EINVAL)
  else
    let mqMsg := mq.sendPtr
    if load32 mem (mqMsg + 4) = 0 then
      let mem := store32 mem mqMsg msg.length
      let mem := write mem (mqMsg + sizeofMqMsg) msg
      let mq := { mq with
        sendPtr := mq.nextSlot mq.sendPtr
        mqAttr := { mq.mqAttr with mqCurmsgs := mq.mqAttr.mqCurmsgs + 1 } }
      let mem := store32 mem (mqMsg + 4) 1
      (mem, mq, 0)
    else (mem, mq, -EINVAL)

/-- The part of `mq_receive` after `sem_wait`: the length and the bytes copied to
the caller, or `none` where the source returns a value it has not set. -/
def mqDequeue (mem : Memory) (mq : Mq) : Memory × Mq × Option (Nat × List Byte) :=
  if mq.mqAttr.mqCurmsgs = 0 then (mem, mq, none)
  else
    let mqMsg := mq.recvPtr
    if load32 mem (mqMsg + 4) ≠ 0 then
      let size := load32 mem mqMsg
      let bytes := read mem (mqMsg + sizeofMqMsg) size
      let mq := { mq with
        recvPtr := mq.nextSlot mq.recvPtr
        mqAttr := { mq.mqAttr with mqCurmsgs := mq.mqAttr.mqCurmsgs - 1 } }
      (store32 mem (mqMsg + 4) 0, mq, some (size, bytes))
    else (mem, mq, none)

/-- `pthread_mutex_lock` where its first attempt does not suspend the caller. -/
def lockNow (k : State) (mutex : Nat) : Option State := do
  let (k, ret) ← rawPthreadMutexLock k mutex
  if ret = -EAGAIN then none else some k

/-- `sem_wait` where its first attempt takes a unit. -/
def semWaitNow (k : State) (sem : Nat) : Option State := do
  let (k, ret) ← rawSemWait k sem
  if ret = 0 then some k else none

/-- A call of `mq_send` that runs to its end; `none` if it would have to wait. -/
def mqSend (s : MqState) (msg : List Byte) : Option (MqState × Int) := do
  let k ← lockNow s.kernel s.mq.objects.wMutex
  let (mem, mq, ret) := mqEnqueue s.mem s.mq msg
  let k ← if ret = 0 ∧ mq.blocking then (semPost k mq.objects.sem).map Prod.fst else some k
  let (k, _) ← pthreadMutexUnlock k s.mq.objects.wMutex
  some (⟨k, mem, mq⟩, ret)

/-- A call of `mq_receive` that runs to its end. -/
def mqReceive (s : MqState) : Option (MqState × Option (Nat × List Byte)) := do
  let k ← lockNow s.kernel s.mq.objects.rMutex
  let k ← if s.mq.blocking then semWaitNow k s.mq.objects.sem else some k
  let (mem, mq, received) := mqDequeue s.mem s.mq
  let (k, _) ← pthreadMutexUnlock k s.mq.objects.rMutex
  some (⟨k, mem, mq⟩, received)

end PosixRtos.Mqueue
