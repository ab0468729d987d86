import PosixRtos.Mqueue.Calls

/-! What `mq_receive` promises its caller. It copies as many bytes as the slot says,
without a look at the caller's length, and on the paths that deliver nothing it
returns a variable that was never assigned. -/
namespace PosixRtos.Mqueue

open PosixRtos.Kernel PosixRtos.Library.ByteMemory PosixRtos.Library.Runs

/-- `memcpy`, byte by byte. -/
def memcpy (mem : Memory) (dest src : Nat) : Nat → Memory
  | 0 => mem
  | count + 1 => memcpy (Function.update mem dest (mem src)) (dest + 1) (src + 1) count

/-- What a call leaves: the bytes it has copied to the caller, and its result. -/
structure Received where
  state : MqState
  copied : Nat
  ret : Int

/-- The part of `mq_receive` after `sem_wait`. `unset` is what is in `ret` before it
is assigned. -/
def mqTake (mem : Memory) (mq : Mq) (msgPtr : Nat) (unset : BitVec 32) :
    Memory × Mq × Nat × BitVec 32 :=
  if mq.mqAttr.mqCurmsgs = 0 then (mem, mq, 0, unset)
  else
    let mqMsg := mq.recvPtr
    if load32 mem (mqMsg + 4) ≠ 0 then
      let size := load32 mem mqMsg
      let mem := memcpy mem msgPtr (mqMsg + sizeofMqMsg) size
      let mq := { mq with
        recvPtr := mq.nextSlot mq.recvPtr
        mqAttr := { mq.mqAttr with mqCurmsgs := mq.mqAttr.mqCurmsgs - 1 } }
      let ret := BitVec.ofNat 32 (load32 mem mqMsg)
      (store32 mem (mqMsg + 4) 0, mq, size, ret)
    else (mem, mq, 0, unset)

/-- The wait for a message, where the queue is a blocking one. -/
def Mq.awaitNow (mq : Mq) (k : State) : Option State :=
  if mq.blocking then semWaitNow k mq.objects.sem else some k

/-- A call of `mq_receive` that runs to its end; it does not use `msg_len`. -/
def mqReceiveInto (s : MqState) (msgPtr _msgLen : Nat) (unset : BitVec 32) : Option Received := do
  let k ← lockNow s.kernel s.mq.objects.rMutex
  let k ← s.mq.awaitNow k
  let (mem, mq, copied, ret) := mqTake s.mem s.mq msgPtr unset
  let (k, _) ← pthreadMutexUnlock k s.mq.objects.rMutex
  some ⟨⟨k, mem, mq⟩, copied, ret.toInt⟩

/-! The contract of one call. -/

def Dequeued (s t : MqState) : Prop := t.mq.mqAttr.mqCurmsgs = s.mq.mqAttr.mqCurmsgs - 1

instance (s t : MqState) : Decidable (Dequeued s t) := inferInstanceAs (Decidable (_ = _))

structure Contract (s : MqState) (msgLen : Nat) (r : Received) : Prop where
  within : r.copied ≤ msgLen
  result : 0 ≤ r.ret ↔ Dequeued s r.state
  length : Dequeued s r.state → r.ret = load32 s.mem s.mq.recvPtr
  otherwise : ¬ Dequeued s r.state →
    r.ret < 0 ∧ r.copied = 0 ∧ r.state.mem = s.mem ∧ r.state.mq = s.mq

/-- There is a message, in a slot that is in use, and its length is no more than the
caller's and is not negative as an `ssize_t`. -/
structure Deliverable (s : MqState) (msgLen : Nat) : Prop where
  counted : s.mq.mqAttr.mqCurmsgs ≠ 0
  used : load32 s.mem (s.mq.recvPtr + 4) ≠ 0
  fits : load32 s.mem s.mq.recvPtr ≤ msgLen
  signed : load32 s.mem s.mq.recvPtr < 2 ^ 31

variable {mem : Memory} {mq : Mq} {s : MqState} {msgPtr msgLen dest src count x : Nat}
  {unset : BitVec 32}

theorem memcpy_outside (hx : x < dest ∨ dest + count ≤ x) :
    memcpy mem dest src count x = mem x := by
  induction count generalizing mem dest src with
  | zero => rfl
  | succ count ih =>
    rw [memcpy, ih (by omega), Function.update_of_ne (by omega)]

/-- The slot is handled as in `mqDequeue`. -/
theorem mqTake_eq_mqDequeue (mem : Memory) (mq : Mq) (msgPtr : Nat) (unset : BitVec 32) :
    (mqTake mem mq msgPtr unset).2.1 = (mqDequeue mem mq).2.1 ∧
      (mqTake mem mq msgPtr unset).2.2.1 = ((mqDequeue mem mq).2.2.map Prod.fst).getD 0 := by
  unfold mqTake mqDequeue
  split
  · exact ⟨rfl, rfl⟩
  · dsimp only
    split
    · exact ⟨rfl, rfl⟩
    · exact ⟨rfl, rfl⟩

/-- Nothing is delivered, and the result is what was in the variable. -/
theorem mqTake_unset (h : mq.mqAttr.mqCurmsgs = 0 ∨ load32 mem (mq.recvPtr + 4) = 0) :
    mqTake mem mq msgPtr unset = (mem, mq, 0, unset) := by
  unfold mqTake
  by_cases hempty : mq.mqAttr.mqCurmsgs = 0
  · rw [if_pos hempty]
  · have hfree := h.resolve_left hempty
    rw [if_neg hempty]
    dsimp only
    rw [if_neg (not_not.mpr hfree)]

theorem mqTake_delivered (msgPtr : Nat) (unset : BitVec 32)
    (hcounted : mq.mqAttr.mqCurmsgs ≠ 0) (hused : load32 mem (mq.recvPtr + 4) ≠ 0) :
    (mqTake mem mq msgPtr unset).2.1.mqAttr.mqCurmsgs = mq.mqAttr.mqCurmsgs - 1 ∧
      (mqTake mem mq msgPtr unset).2.2.1 = load32 mem mq.recvPtr ∧
      (mqTake mem mq msgPtr unset).2.2.2 = BitVec.ofNat 32
        (load32 (memcpy mem msgPtr (mq.recvPtr + sizeofMqMsg) (load32 mem mq.recvPtr))
          mq.recvPtr) := by
  unfold mqTake
  rw [if_neg hcounted]
  dsimp only
  rw [if_pos hused]
  exact ⟨rfl, rfl, rfl⟩

/-- The header of the slot is not overwritten by the copy. -/
theorem load32_memcpy_apart (hapart : msgPtr + msgLen ≤ mq.recvPtr ∨
      mq.recvPtr + sizeofMqMsg ≤ msgPtr) (hcount : count ≤ msgLen) :
    load32 (memcpy mem msgPtr src count) mq.recvPtr = load32 mem mq.recvPtr := by
  unfold sizeofMqMsg at hapart
  apply load32_congr
  intro x hx hx'
  exact memcpy_outside (by omega)

theorem toInt_ofNat_of_lt {n : Nat} (hn : n < 2 ^ 31) : (BitVec.ofNat 32 n).toInt = n := by
  rw [BitVec.toInt_eq_toNat_cond, BitVec.toNat_ofNat]
  omega

theorem toInt_ofNat_of_ge {n : Nat} (hn : n < 2 ^ 32) (hge : 2 ^ 31 ≤ n) :
    (BitVec.ofNat 32 n).toInt < 0 := by
  rw [BitVec.toInt_eq_toNat_cond, BitVec.toNat_ofNat]
  omega

/-- What the variable held does not decide whether the call returns. -/
theorem mqReceiveInto_eq {r : Received} {unset' : BitVec 32}
    (h : mqReceiveInto s msgPtr msgLen unset' = some r) (unset : BitVec 32) :
    ∃ k, mqReceiveInto s msgPtr msgLen unset = some
      ⟨⟨k, (mqTake s.mem s.mq msgPtr unset).1, (mqTake s.mem s.mq msgPtr unset).2.1⟩,
        (mqTake s.mem s.mq msgPtr unset).2.2.1,
        (mqTake s.mem s.mq msgPtr unset).2.2.2.toInt⟩ := by
  unfold mqReceiveInto at h ⊢
  obtain ⟨k₁, hlock, h⟩ := Option.bind_eq_some_iff.mp h
  obtain ⟨k₂, hwait, h⟩ := Option.bind_eq_some_iff.mp h
  obtain ⟨⟨k₃, ret⟩, hunlock, -⟩ := Option.bind_eq_some_iff.mp h
  refine ⟨k₃, ?_⟩
  simp only [hlock, hwait, hunlock, Option.bind_eq_bind, Option.bind_some]

/-- The contract is kept, whatever the variable holds. -/
def Kept (s : MqState) (msgPtr msgLen : Nat) : Prop :=
  ∀ unset, ∃ r, mqReceiveInto s msgPtr msgLen unset = some r ∧ Contract s msgLen r

theorem Deliverable.contract (h : Deliverable s msgLen)
    (hapart : msgPtr + msgLen ≤ s.mq.recvPtr ∨ s.mq.recvPtr + sizeofMqMsg ≤ msgPtr) (k : State) :
    Contract s msgLen
      ⟨⟨k, (mqTake s.mem s.mq msgPtr unset).1, (mqTake s.mem s.mq msgPtr unset).2.1⟩,
        (mqTake s.mem s.mq msgPtr unset).2.2.1,
        (mqTake s.mem s.mq msgPtr unset).2.2.2.toInt⟩ := by
  obtain ⟨hcount, hcopied, hret⟩ := mqTake_delivered msgPtr unset h.counted h.used
  rw [load32_memcpy_apart hapart h.fits] at hret
  have hlength := toInt_ofNat_of_lt h.signed
  rw [← hret] at hlength
  refine ⟨hcopied.trans_le h.fits, ?_, fun _ => hlength, fun hnot => absurd hcount hnot⟩
  exact iff_of_true (by rw [hlength]; exact Int.natCast_nonneg _) hcount

theorem Kept.deliverable (h : Kept s msgPtr msgLen)
    (hapart : msgPtr + msgLen ≤ s.mq.recvPtr ∨ s.mq.recvPtr + sizeofMqMsg ≤ msgPtr) :
    Deliverable s msgLen := by
  -- the variable may hold 0, and then only a message makes the result right
  obtain ⟨r, hr, hcontract⟩ := h 0
  obtain ⟨k, hcall⟩ := mqReceiveInto_eq hr 0
  rw [hr, Option.some.injEq] at hcall
  subst hcall
  by_cases hnone : s.mq.mqAttr.mqCurmsgs = 0 ∨ load32 s.mem (s.mq.recvPtr + 4) = 0
  · have hresult := hcontract.result
    rw [mqTake_unset hnone] at hresult
    have hzero : 0 ≤ (0 : BitVec 32).toInt := by decide
    have hdequeued : s.mq.mqAttr.mqCurmsgs = s.mq.mqAttr.mqCurmsgs - 1 := hresult.mp hzero
    omega
  rw [not_or] at hnone
  obtain ⟨hcount, hcopied, hret⟩ := mqTake_delivered msgPtr 0 hnone.1 hnone.2
  have hfits : load32 s.mem s.mq.recvPtr ≤ msgLen := hcopied.symm.trans_le hcontract.within
  refine ⟨hnone.1, hnone.2, hfits, ?_⟩
  rw [load32_memcpy_apart hapart hfits] at hret
  by_contra hlarge
  have hnegative := toInt_ofNat_of_ge (load32_lt s.mem s.mq.recvPtr) (not_lt.mp hlarge)
  rw [← hret] at hnegative
  exact absurd (hcontract.result.mpr hcount) (not_le.mpr hnegative)

/-- In a queue of messages there is one to deliver, and it is short enough. -/
theorem Stores.deliverable_iff {maxmsg msgsize : Nat} {q : List Message}
    (hs : Stores s.mem s.mq maxmsg msgsize q) (hsize : msgsize < 2 ^ 31) :
    Deliverable s msgLen ↔ ∃ msg rest, q = msg :: rest ∧ msg.length ≤ msgLen := by
  cases q with
  | nil =>
    refine iff_of_false ?_ ?_
    · exact fun h => h.counted hs.curmsgs_eq
    · rintro ⟨msg, rest, hq, -⟩
      cases hq
  | cons msg rest =>
    obtain ⟨hused, hlength, -⟩ := hs.first
    have hcounted : s.mq.mqAttr.mqCurmsgs ≠ 0 := by
      rw [hs.curmsgs_eq, List.length_cons]
      omega
    obtain ⟨r, hring, hrecv, -⟩ := hs.ring
    have hshort : msg.length ≤ msgsize := by
      rw [← hlength, hrecv]
      exact hs.sized r hring.start (hrecv ▸ hused)
    constructor
    · exact fun h => ⟨msg, rest, rfl, hlength ▸ h.fits⟩
    · rintro ⟨msg', rest', hq, hfits⟩
      cases hq
      exact ⟨hcounted, hused, hlength ▸ hfits, by omega⟩

/-! Any number of calls. -/

structure Receipt where
  before : MqState
  msgPtr : Nat
  msgLen : Nat

/-- A queue with the calls of `mq_receive` that have returned. -/
structure Reading where
  s : MqState
  receipts : List Receipt

inductive ReadingCall where
  | send (msg : Message)
  | receive (msgPtr msgLen : Nat) (unset : BitVec 32)
  | elsewhere (kernel : State) (mem : Memory)

/-- The caller's buffer is not in the header of the slot. -/
def ReadingCall.Allowed (reading : Reading) : ReadingCall → Prop
  | .send _ => True
  | .receive msgPtr msgLen _ => msgPtr + msgLen ≤ reading.s.mq.recvPtr ∨
      reading.s.mq.recvPtr + sizeofMqMsg ≤ msgPtr
  | .elsewhere kernel mem => LeavesAlone reading.s kernel mem

instance ReadingCall.decidableAllowed (reading : Reading) :
    (call : ReadingCall) → Decidable (call.Allowed reading)
  | .send _ => inferInstanceAs (Decidable True)
  | .receive _ _ _ => inferInstanceAs (Decidable (_ ∨ _))
  | .elsewhere kernel mem => inferInstanceAs (Decidable (LeavesAlone reading.s kernel mem))

def Reading.call (reading : Reading) : ReadingCall → Option Reading
  | .send msg => (mqSend reading.s msg).map fun (s, _) => { reading with s := s }
  | .receive msgPtr msgLen unset => (mqReceiveInto reading.s msgPtr msgLen unset).map fun r =>
      ⟨r.state, reading.receipts ++ [⟨reading.s, msgPtr, msgLen⟩]⟩
  | .elsewhere kernel mem =>
      some { reading with s := { reading.s with kernel := kernel, mem := mem } }

/-- A call that returns keeps the contract exactly if it could deliver. -/
theorem kept_iff {r : Received} (hreturns : mqReceiveInto s msgPtr msgLen unset = some r)
    (hapart : msgPtr + msgLen ≤ s.mq.recvPtr ∨ s.mq.recvPtr + sizeofMqMsg ≤ msgPtr) :
    Kept s msgPtr msgLen ↔ Deliverable s msgLen := by
  constructor
  · intro h
    exact h.deliverable hapart
  · intro h unset'
    obtain ⟨k, hcall⟩ := mqReceiveInto_eq hreturns unset'
    exact ⟨_, hcall, h.contract hapart k⟩

/-- In every run, whatever calls were made before, a call of `mq_receive` keeps its
contract exactly if the head slot has a message for it that fits. -/
theorem receipts_kept_iff {start : MqState} {reading : Reading}
    (hrun : Reaches Reading.call (fun reading call => call.Allowed reading) ⟨start, []⟩ reading) :
    ∀ receipt ∈ reading.receipts, Kept receipt.before receipt.msgPtr receipt.msgLen ↔
      Deliverable receipt.before receipt.msgLen := by
  apply hrun.invariant fun reading => ∀ receipt ∈ reading.receipts,
    Kept receipt.before receipt.msgPtr receipt.msgLen ↔ Deliverable receipt.before receipt.msgLen
  · intro receipt hreceipt
    cases hreceipt
  · intro reading call reading' hold hok hstep
    cases call with
    | send msg =>
      obtain ⟨_, -, rfl⟩ := Option.map_eq_some_iff.mp hstep
      exact hold
    | elsewhere kernel mem =>
      cases hstep
      exact hold
    | receive msgPtr msgLen unset =>
      obtain ⟨r, hreturns, rfl⟩ := Option.map_eq_some_iff.mp hstep
      intro receipt hreceipt
      rcases List.mem_append.mp hreceipt with hmem | hmem
      · exact hold receipt hmem
      · rw [List.mem_singleton.mp hmem]
        exact kept_iff hreturns hok

instance (s : MqState) (msgLen : Nat) : Decidable (Deliverable s msgLen) :=
  decidable_of_iff (s.mq.mqAttr.mqCurmsgs ≠ 0 ∧ load32 s.mem (s.mq.recvPtr + 4) ≠ 0 ∧
      load32 s.mem s.mq.recvPtr ≤ msgLen ∧ load32 s.mem s.mq.recvPtr < 2 ^ 31)
    ⟨fun h => ⟨h.1, h.2.1, h.2.2.1, h.2.2.2⟩, fun h => ⟨h.counted, h.used, h.fits, h.signed⟩⟩

theorem smallQueue_keeps_contract :
    ∃ s reading receipt, smallQueue = .ok s ∧
      runInputs Reading.call (fun reading call => call.Allowed reading)
        [.send [1, 2], .receive 0x1000 4 7] ⟨s, []⟩ = some reading ∧
      receipt ∈ reading.receipts ∧ Kept receipt.before receipt.msgPtr receipt.msgLen := by
  have hfacts : (smallQueue.toOption.bind fun s =>
      runInputs Reading.call (fun reading call => call.Allowed reading)
        [.send [1, 2], .receive 0x1000 4 7] ⟨s, []⟩).map (fun reading =>
          reading.receipts.map fun r => decide (Deliverable r.before r.msgLen)) =
      some [true] := by decide +kernel
  obtain ⟨reading, hreading, hreceipts⟩ := Option.map_eq_some_iff.mp hfacts
  obtain ⟨s, hs, hrun⟩ := Option.bind_eq_some_iff.mp hreading
  have hopen := eq_ok_of_toOption hs
  obtain ⟨receipt, hreceipt, hdelivered⟩ :=
    List.mem_map.mp (hreceipts ▸ List.mem_singleton_self true)
  refine ⟨s, reading, receipt, hopen, hrun, hreceipt, ?_⟩
  exact (receipts_kept_iff (.of_runInputs hrun) receipt hreceipt).mpr (of_decide_eq_true hdelivered)

/-- A queue of two messages of at most four bytes that never blocks. -/
def pollingQueue : Except Int MqState :=
  mqOpen clearedState (fun _ => 0xff) true (O_CREAT ||| O_NONBLOCK) (O_CREAT ||| O_NONBLOCK)
    ⟨0, 2, 4, 0⟩ (some 0x20000010) (some ⟨0, 0, 1⟩)

/-- Four bytes are copied to a buffer of one, and an empty queue returns what was in
the variable. -/
theorem short_buffer_and_empty_queue_break_contract :
    (∃ s reading r, smallQueue = .ok s ∧
      runInputs Reading.call (fun reading call => call.Allowed reading) [.send [1, 2, 3, 4]]
        ⟨s, []⟩ = some reading ∧
      mqReceiveInto reading.s 0x1000 1 0 = some r ∧ r.copied = 4 ∧ ¬ Contract reading.s 1 r) ∧
    ∃ s r, pollingQueue = .ok s ∧ mqReceiveInto s 0x1000 4 0 = some r ∧ r.ret = 0 ∧
      ¬ Contract s 4 r := by
  constructor
  · have hfacts : (smallQueue.toOption.bind fun s =>
        (runInputs Reading.call (fun reading call => call.Allowed reading) [.send [1, 2, 3, 4]]
          ⟨s, []⟩).bind fun reading => mqReceiveInto reading.s 0x1000 1 0).map Received.copied =
        some 4 := by decide +kernel
    obtain ⟨r, hr, hcopied⟩ := Option.map_eq_some_iff.mp hfacts
    obtain ⟨s, hs, hr⟩ := Option.bind_eq_some_iff.mp hr
    obtain ⟨reading, hrun, hr⟩ := Option.bind_eq_some_iff.mp hr
    have hopen := eq_ok_of_toOption hs
    refine ⟨s, reading, r, hopen, hrun, hr, hcopied, fun hcontract => ?_⟩
    have hwithin := hcontract.within
    omega
  · have hfacts : (pollingQueue.toOption.bind fun s =>
        (mqReceiveInto s 0x1000 4 0).map fun r =>
          (r.ret, decide (Dequeued s r.state))) = some (0, false) := by decide +kernel
    obtain ⟨s, hs, hr⟩ := Option.bind_eq_some_iff.mp hfacts
    obtain ⟨r, hr, hresult⟩ := Option.map_eq_some_iff.mp hr
    have hopen := eq_ok_of_toOption hs
    rw [Prod.mk.injEq] at hresult
    refine ⟨s, r, hopen, hr, hresult.1, fun hcontract => ?_⟩
    exact of_decide_eq_false hresult.2 (hcontract.result.mp hresult.1.ge)

end PosixRtos.Mqueue
