import PosixRtos.Mqueue.Calls

/-! Which attributes make a safe queue. `mq_open` bounds the product of the two
attributes; the length of the buffer is a product of 32-bit words, in which the
header of a slot counts and which may wrap. The buffer is safe if it is a whole
number of slots. -/
namespace PosixRtos.Mqueue

open PosixRtos.Kernel PosixRtos.Library.ByteMemory PosixRtos.Library.Runs

/-- The bytes of a slot. -/
def MqAttr.slotSize (attr : MqAttr) : Nat := sizeofMqMsg + sizeT attr.mqMsgsize

def MqAttr.bufferSize (attr : MqAttr) : Nat := attr.slotSize * sizeT attr.mqMaxmsg % 2 ^ 32

/-- No message is ever stored, or the buffer is cut into slots. -/
def MqAttr.Sound (attr : MqAttr) : Prop :=
  attr.mqMaxmsg = 0 ∨
    (0 < attr.mqMaxmsg ∧ attr.slotSize ≤ attr.bufferSize ∧ attr.slotSize ∣ attr.bufferSize)

instance (attr : MqAttr) : Decidable attr.Sound := inferInstanceAs (Decidable (_ ∨ _))

/-- The values of a `long`. -/
def IsLong (n : Int) : Prop := -2 ^ 31 ≤ n ∧ n < 2 ^ 31

/-- The attributes are 32-bit numbers, `mq_open` has returned the queue of `s`, and
its buffer is a block of the heap, which ends below the end of the address space. -/
structure Created (attr : MqAttr) (s : MqState) : Prop where
  returned : ∃ k mem name flag mode buffer objects,
    mqOpen k mem name flag mode attr buffer objects = .ok s
  maxmsg : IsLong attr.mqMaxmsg
  msgsize : IsLong attr.mqMsgsize
  below : s.mq.mqPbuf + s.mq.mqPbufSize < 2 ^ 32

theorem Opened.created {attr : MqAttr} {s : MqState} (hopen : Opened attr s)
    (hmaxmsg : IsLong attr.mqMaxmsg) (hmsgsize : IsLong attr.mqMsgsize) : Created attr s :=
  ⟨hopen.returned, hmaxmsg, hmsgsize, hopen.below⟩

/-! The bytes that a call reads or writes in the buffer, as the places where they
begin and their numbers. -/

def sendAccesses (mem : Memory) (mq : Mq) (msg : Message) : List (Nat × Nat) :=
  if mq.mqAttr.mqMaxmsg ≤ mq.mqAttr.mqCurmsgs then []
  else if sizeT mq.mqAttr.mqMsgsize < msg.length then []
  else
    let mqMsg := mq.sendPtr
    (mqMsg + 4, 4) ::
      if load32 mem (mqMsg + 4) = 0 then
        [(mqMsg, 4), (mqMsg + sizeofMqMsg, msg.length), (mqMsg + 4, 4)]
      else []

/-- `msg_size` is read again for the result. -/
def receiveAccesses (mem : Memory) (mq : Mq) : List (Nat × Nat) :=
  if mq.mqAttr.mqCurmsgs = 0 then []
  else
    let mqMsg := mq.recvPtr
    (mqMsg + 4, 4) ::
      if load32 mem (mqMsg + 4) ≠ 0 then
        [(mqMsg, 4), (mqMsg + sizeofMqMsg, load32 mem mqMsg), (mqMsg, 4), (mqMsg + 4, 4)]
      else []

/-- The calls on a queue with the accesses that they have made. -/
structure Watched where
  session : Session
  accesses : List (Nat × Nat)

def Call.accesses (s : MqState) : Call → List (Nat × Nat)
  | .send msg => sendAccesses s.mem s.mq msg
  | .receive => receiveAccesses s.mem s.mq
  | .elsewhere _ _ => []

def Watched.call (w : Watched) (call : Call) : Option Watched :=
  (w.session.call call).map fun session => ⟨session, w.accesses ++ call.accesses w.session.s⟩

/-- The calls are free; the rest of the system leaves the queue alone. -/
def Watched.Allowed (w : Watched) : Call → Prop
  | .elsewhere kernel mem => LeavesAlone w.session.s kernel mem
  | .send _ | .receive => True

instance Watched.decidableAllowed (w : Watched) : (call : Call) → Decidable (w.Allowed call)
  | .elsewhere kernel mem => inferInstanceAs (Decidable (LeavesAlone w.session.s kernel mem))
  | .send _ | .receive => .isTrue trivial

def Watched.start (s : MqState) : Watched := ⟨⟨s, [], []⟩, []⟩

/-- Every byte that was accessed is one of `size` from `base` on, and no more than
`maxmsg` messages are stored. -/
structure Watched.Safe (base size : Nat) (maxmsg : Int) (w : Watched) : Prop where
  inside : ∀ access ∈ w.accesses, ∀ x, access.1 ≤ x → x < access.1 + access.2 →
    base ≤ x ∧ x < base + size
  bounded : (w.session.accepted.length : Int) - w.session.delivered.length ≤ maxmsg

/-! What the blocks of the two calls do. -/

variable {mem : Memory} {mq : Mq} {msg : Message} {s s' : MqState} {ret : Int}

theorem mqEnqueue_accepted (hroom : mq.mqAttr.mqCurmsgs < mq.mqAttr.mqMaxmsg)
    (hlength : msg.length ≤ sizeT mq.mqAttr.mqMsgsize)
    (hfree : load32 mem (mq.sendPtr + 4) = 0) :
    mqEnqueue mem mq msg = (fillSlot mem mq.sendPtr msg, { mq with
      sendPtr := mq.nextSlot mq.sendPtr
      mqAttr := { mq.mqAttr with mqCurmsgs := mq.mqAttr.mqCurmsgs + 1 } }, 0) := by
  rw [mqEnqueue, if_neg (not_le.mpr hroom), if_neg (not_lt.mpr hlength)]
  exact if_pos hfree

/-- The block of `mq_send` refuses, or fills the slot. -/
theorem mqEnqueue_cases (mem : Memory) (mq : Mq) (msg : Message) :
    mqEnqueue mem mq msg = (mem, mq, -EINVAL) ∨
      (mq.mqAttr.mqCurmsgs < mq.mqAttr.mqMaxmsg ∧ msg.length ≤ sizeT mq.mqAttr.mqMsgsize ∧
        load32 mem (mq.sendPtr + 4) = 0 ∧
        mqEnqueue mem mq msg = (fillSlot mem mq.sendPtr msg, { mq with
          sendPtr := mq.nextSlot mq.sendPtr
          mqAttr := { mq.mqAttr with mqCurmsgs := mq.mqAttr.mqCurmsgs + 1 } }, 0)) := by
  by_cases hroom : mq.mqAttr.mqMaxmsg ≤ mq.mqAttr.mqCurmsgs
  · exact .inl (if_pos hroom)
  by_cases hlength : sizeT mq.mqAttr.mqMsgsize < msg.length
  · rw [mqEnqueue, if_neg hroom, if_pos hlength]
    exact .inl rfl
  by_cases hfree : load32 mem (mq.sendPtr + 4) = 0
  · have hfilled := mqEnqueue_accepted (not_le.mp hroom) (not_lt.mp hlength) hfree
    exact .inr ⟨not_le.mp hroom, not_lt.mp hlength, hfree, hfilled⟩
  · rw [mqEnqueue, if_neg hroom, if_neg hlength]
    exact .inl (if_neg hfree)

/-- The block of `mq_receive` finds nothing, or empties the slot. -/
theorem mqDequeue_cases (mem : Memory) (mq : Mq) :
    mqDequeue mem mq = (mem, mq, none) ∨
      (mq.mqAttr.mqCurmsgs ≠ 0 ∧ load32 mem (mq.recvPtr + 4) ≠ 0 ∧
        ∃ message, mqDequeue mem mq = (store32 mem (mq.recvPtr + 4) 0, { mq with
          recvPtr := mq.nextSlot mq.recvPtr
          mqAttr := { mq.mqAttr with mqCurmsgs := mq.mqAttr.mqCurmsgs - 1 } }, some message)) := by
  unfold mqDequeue
  split
  · exact .inl rfl
  next hcounted =>
  dsimp only
  split
  next hused => exact .inr ⟨hcounted, hused, _, rfl⟩
  next => exact .inl rfl

/-- What a send writes is among its accesses. -/
theorem mqEnqueue_frame {x : Nat}
    (hx : ∀ access ∈ sendAccesses mem mq msg, x < access.1 ∨ access.1 + access.2 ≤ x) :
    (mqEnqueue mem mq msg).1 x = mem x := by
  rcases mqEnqueue_cases mem mq msg with hrefused | ⟨hroom, hlength, hfree, hfilled⟩
  · rw [hrefused]
  · rw [sendAccesses, if_neg (not_le.mpr hroom), if_neg (not_lt.mpr hlength)] at hx
    dsimp only at hx
    rw [if_pos hfree] at hx
    simp only [List.forall_mem_cons] at hx
    obtain ⟨hused, hsize, hbytes, -⟩ := hx
    rw [hfilled]
    dsimp only
    unfold fillSlot store32
    rw [write_outside (by rwa [length_wordBytes]), write_outside hbytes,
      write_outside (by rwa [length_wordBytes])]

theorem mqDequeue_frame {x : Nat}
    (hx : ∀ access ∈ receiveAccesses mem mq, x < access.1 ∨ access.1 + access.2 ≤ x) :
    (mqDequeue mem mq).1 x = mem x := by
  rcases mqDequeue_cases mem mq with hnothing | ⟨hcounted, hused, message, htaken⟩
  · rw [hnothing]
  · rw [receiveAccesses, if_neg hcounted] at hx
    have hflag := hx _ List.mem_cons_self
    rw [htaken]
    exact write_outside (by rwa [length_wordBytes])

theorem mqSend_block (h : mqSend s msg = some (s', ret)) :
    mqEnqueue s.mem s.mq msg = (s'.mem, s'.mq, ret) := by
  unfold mqSend at h
  obtain ⟨k, -, h⟩ := Option.bind_eq_some_iff.mp h
  dsimp only at h
  split at h
  · obtain ⟨k', -, h⟩ := Option.bind_eq_some_iff.mp h
    obtain ⟨k'', -, h⟩ := Option.bind_eq_some_iff.mp h
    cases h
    rfl
  · obtain ⟨k', -, h⟩ := Option.bind_eq_some_iff.mp h
    obtain ⟨k'', -, h⟩ := Option.bind_eq_some_iff.mp h
    cases h
    rfl

theorem mqReceive_block {received : Option (Nat × List Byte)}
    (h : mqReceive s = some (s', received)) :
    mqDequeue s.mem s.mq = (s'.mem, s'.mq, received) := by
  unfold mqReceive at h
  obtain ⟨k, -, h⟩ := Option.bind_eq_some_iff.mp h
  dsimp only at h
  split at h
  · obtain ⟨k', -, h⟩ := Option.bind_eq_some_iff.mp h
    obtain ⟨k'', -, h⟩ := Option.bind_eq_some_iff.mp h
    cases h
    rfl
  · obtain ⟨k', -, h⟩ := Option.bind_eq_some_iff.mp h
    obtain ⟨k'', -, h⟩ := Option.bind_eq_some_iff.mp h
    cases h
    rfl

/-! Where the accesses lie. -/

def Within (lo hi : Nat) (accesses : List (Nat × Nat)) : Prop :=
  ∀ access ∈ accesses, lo ≤ access.1 ∧ access.1 + access.2 ≤ hi

variable {lo hi lo' hi' : Nat} {accesses : List (Nat × Nat)}

theorem Within.mono (h : Within lo hi accesses) (hlo : lo' ≤ lo) (hhi : hi ≤ hi') :
    Within lo' hi' accesses := by
  intro access haccess
  obtain ⟨h₁, h₂⟩ := h access haccess
  exact ⟨hlo.trans h₁, h₂.trans hhi⟩

theorem Within.append {accesses' : List (Nat × Nat)} (h : Within lo hi accesses)
    (h' : Within lo hi accesses') : Within lo hi (accesses ++ accesses') := by
  intro access haccess
  exact (List.mem_append.mp haccess).elim (h access) (h' access)

/-- A send stays in the slot at the send pointer. -/
theorem sendAccesses_within (mem : Memory) (mq : Mq) (msg : Message) :
    Within mq.sendPtr (mq.sendPtr + (sizeofMqMsg + sizeT mq.mqAttr.mqMsgsize))
      (sendAccesses mem mq msg) := by
  have hheader : sizeofMqMsg = 8 := rfl
  unfold sendAccesses
  split
  · exact nofun
  split
  · exact nofun
  next hlength =>
  dsimp only
  intro access haccess
  rcases List.mem_cons.mp haccess with rfl | haccess
  · dsimp only
    omega
  split at haccess
  · simp only [List.mem_cons, List.not_mem_nil, or_false] at haccess
    rcases haccess with rfl | rfl | rfl
    · dsimp only
      omega
    · dsimp only
      omega
    · dsimp only
      omega
  · cases haccess

/-- A receive stays in the slot at the receive pointer, if the slot does not claim
more than it has. -/
theorem receiveAccesses_within
    (hsized : load32 mem (mq.recvPtr + 4) ≠ 0 →
      load32 mem mq.recvPtr ≤ sizeT mq.mqAttr.mqMsgsize) :
    Within mq.recvPtr (mq.recvPtr + (sizeofMqMsg + sizeT mq.mqAttr.mqMsgsize))
      (receiveAccesses mem mq) := by
  have hheader : sizeofMqMsg = 8 := rfl
  unfold receiveAccesses
  split
  · exact nofun
  dsimp only
  intro access haccess
  rcases List.mem_cons.mp haccess with rfl | haccess
  · dsimp only
    omega
  split at haccess
  next hused =>
    have hlength := hsized hused
    simp only [List.mem_cons, List.not_mem_nil, or_false] at haccess
    rcases haccess with rfl | rfl | rfl | rfl
    · dsimp only
      omega
    · dsimp only
      omega
    · dsimp only
      omega
    · dsimp only
      omega
  next => cases haccess

/-! Attributes that are sound. -/

/-- The buffer is a row of `n` slots, and the pointers are at slots. -/
structure Slotted (base size n : Nat) (maxmsg : Int) (w : Watched) : Prop where
  layout : Layout base size n w.session.s.mq
  maxmsg_eq : w.session.s.mq.mqAttr.mqMaxmsg = maxmsg
  send : ∃ i < n, w.session.s.mq.sendPtr = slotAddr base size i
  recv : ∃ j < n, w.session.s.mq.recvPtr = slotAddr base size j
  sized : Sized w.session.s.mem base size n
  count : w.session.s.mq.mqAttr.mqCurmsgs =
    w.session.accepted.length - w.session.delivered.length
  room : w.session.s.mq.mqAttr.mqCurmsgs ≤ maxmsg
  within : Within base (base + (sizeofMqMsg + size) * n) w.accesses

variable {base size n : Nat} {maxmsg : Int} {w w' : Watched}

theorem Slotted.safe (h : Slotted base size n maxmsg w) :
    w.Safe base ((sizeofMqMsg + size) * n) maxmsg where
  inside access haccess x hx hx' := by
    obtain ⟨hlo, hhi⟩ := h.within access haccess
    omega
  bounded := h.count ▸ h.room

theorem slot_within (base size : Nat) {i : Nat} (hi : i < n) :
    base ≤ slotAddr base size i ∧
      slotAddr base size i + (sizeofMqMsg + size) ≤ base + (sizeofMqMsg + size) * n :=
  ⟨Nat.le_add_right _ _, slot_in_buffer base rfl hi⟩

theorem Layout.congr {mq' : Mq} (h : Layout base size n mq) (hpbuf : mq'.mqPbuf = mq.mqPbuf)
    (hpbufSize : mq'.mqPbufSize = mq.mqPbufSize)
    (hmsgsize : mq'.mqAttr.mqMsgsize = mq.mqAttr.mqMsgsize) : Layout base size n mq' :=
  ⟨hpbuf.trans h.pbuf, by rw [hmsgsize]; exact h.msgsize, hpbufSize.trans h.pbufSize, h.slots,
    h.below⟩

theorem Layout.nextSlot (h : Layout base size n mq) {i : Nat} (hi : i < n) :
    ∃ j < n, mq.nextSlot (slotAddr base size i) = slotAddr base size j := by
  refine ⟨(i + 1) % n, Nat.mod_lt _ h.slots, ?_⟩
  rw [nextSlot_eq, h.behind hi, h.wrapped hi]

/-- A call that has changed nothing. -/
theorem Slotted.keep (h : Slotted base size n maxmsg w) (hmem : s'.mem = w.session.s.mem)
    (hmq : s'.mq = w.session.s.mq)
    (hwithin : Within base (base + (sizeofMqMsg + size) * n) accesses) :
    Slotted base size n maxmsg ⟨{ w.session with s := s' }, accesses⟩ where
  layout := hmq ▸ h.layout
  maxmsg_eq := hmq ▸ h.maxmsg_eq
  send := hmq ▸ h.send
  recv := hmq ▸ h.recv
  sized := hmem ▸ h.sized
  count := hmq ▸ h.count
  room := hmq ▸ h.room
  within := hwithin

theorem Slotted.sendStep (h : Slotted base size n maxmsg w)
    (hstep : w.call (.send msg) = some w') : Slotted base size n maxmsg w' := by
  obtain ⟨session, hcall, rfl⟩ := Option.map_eq_some_iff.mp hstep
  obtain ⟨⟨s', ret⟩, hsend, rfl⟩ := Option.map_eq_some_iff.mp hcall
  have hblock := mqSend_block hsend
  obtain ⟨i, hi, hptr⟩ := h.send
  have hwithin : Within base (base + (sizeofMqMsg + size) * n)
      (w.accesses ++ sendAccesses w.session.s.mem w.session.s.mq msg) := by
    have hslot := sendAccesses_within w.session.s.mem w.session.s.mq msg
    rw [h.layout.msgsize, hptr] at hslot
    obtain ⟨hlo, hhi⟩ := slot_within base size hi
    exact h.within.append (hslot.mono hlo hhi)
  rcases mqEnqueue_cases w.session.s.mem w.session.s.mq msg with
    hrefused | ⟨hroom, hlength, -, hfilled⟩
  · rw [hrefused, Prod.mk.injEq, Prod.mk.injEq] at hblock
    obtain ⟨hmem, hmq, hret⟩ := hblock
    dsimp only
    rw [← hret, if_neg einval_ne_zero, List.append_nil]
    exact h.keep hmem.symm hmq.symm hwithin
  · rw [hfilled, Prod.mk.injEq, Prod.mk.injEq] at hblock
    obtain ⟨hmem, hmq, hret⟩ := hblock
    dsimp only
    rw [← hret, if_pos rfl]
    rw [h.layout.msgsize] at hlength
    refine ⟨?_, ?_, ?_, ?_, ?_, ?_, ?_, hwithin⟩
    · exact h.layout.congr (hmq ▸ rfl) (hmq ▸ rfl) (hmq ▸ rfl)
    · exact hmq ▸ h.maxmsg_eq
    · rw [← hmq]
      dsimp only
      rw [hptr]
      exact h.layout.nextSlot hi
    · exact hmq ▸ h.recv
    · rw [← hmem]
      rw [hptr]
      refine (fillSlot_sameOutside hlength).sized h.sized fun _ => ?_
      have hsmall : msg.length < 2 ^ 32 := by
        have hlt : sizeT w.session.s.mq.mqAttr.mqMsgsize < 2 ^ 32 := by
          unfold sizeT
          omega
        rw [h.layout.msgsize] at hlt
        omega
      exact (fillSlot_words _ _ hsmall).1.trans_le hlength
    · rw [← hmq, List.length_append, List.length_singleton]
      dsimp only
      rw [h.count]
      push_cast
      omega
    · rw [← hmq]
      dsimp only
      rw [h.maxmsg_eq] at hroom
      omega

theorem Slotted.receiveStep (h : Slotted base size n maxmsg w)
    (hstep : w.call .receive = some w') : Slotted base size n maxmsg w' := by
  obtain ⟨session, hcall, rfl⟩ := Option.map_eq_some_iff.mp hstep
  obtain ⟨⟨s', received⟩, hreceive, rfl⟩ := Option.map_eq_some_iff.mp hcall
  have hblock := mqReceive_block hreceive
  obtain ⟨j, hj, hptr⟩ := h.recv
  have hwithin : Within base (base + (sizeofMqMsg + size) * n)
      (w.accesses ++ receiveAccesses w.session.s.mem w.session.s.mq) := by
    have hslot := @receiveAccesses_within w.session.s.mem w.session.s.mq (by
      rw [h.layout.msgsize, hptr]
      exact h.sized j hj)
    rw [h.layout.msgsize, hptr] at hslot
    obtain ⟨hlo, hhi⟩ := slot_within base size hj
    exact h.within.append (hslot.mono hlo hhi)
  rcases mqDequeue_cases w.session.s.mem w.session.s.mq with
    hnothing | ⟨hcounted, -, message, htaken⟩
  · rw [hnothing, Prod.mk.injEq, Prod.mk.injEq] at hblock
    obtain ⟨hmem, hmq, hreceived⟩ := hblock
    dsimp only
    rw [← hreceived, Option.map_none, Option.toList_none, List.append_nil]
    exact h.keep hmem.symm hmq.symm hwithin
  · rw [htaken, Prod.mk.injEq, Prod.mk.injEq] at hblock
    obtain ⟨hmem, hmq, hreceived⟩ := hblock
    dsimp only
    rw [← hreceived, Option.map_some, Option.toList_some]
    refine ⟨?_, ?_, ?_, ?_, ?_, ?_, ?_, hwithin⟩
    · exact h.layout.congr (hmq ▸ rfl) (hmq ▸ rfl) (hmq ▸ rfl)
    · exact hmq ▸ h.maxmsg_eq
    · exact hmq ▸ h.send
    · rw [← hmq]
      dsimp only
      rw [hptr]
      exact h.layout.nextSlot hj
    · rw [← hmem, hptr]
      refine (clearSlot_sameOutside _ _ _ _).sized h.sized fun hused => absurd ?_ hused
      exact load32_store32 (by decide)
    · rw [← hmq, List.length_append, List.length_singleton]
      dsimp only
      rw [h.count]
      push_cast
      omega
    · rw [← hmq]
      dsimp only
      have hroom := h.room
      omega

theorem Slotted.step {call : Call} (h : Slotted base size n maxmsg w) (hok : w.Allowed call)
    (hstep : w.call call = some w') : Slotted base size n maxmsg w' := by
  cases call with
  | send msg => exact h.sendStep hstep
  | receive => exact h.receiveStep hstep
  | elsewhere kernel mem =>
    obtain ⟨session, hcall, rfl⟩ := Option.map_eq_some_iff.mp hstep
    cases hcall
    have hbuffer := hok.buffer
    rw [h.layout.pbuf] at hbuffer
    have hsized := h.sized.congr h.layout.pbufSize hbuffer
    refine { h with sized := hsized, within := ?_ }
    exact h.within.append nofun

/-! Attributes with which nothing is stored. -/

structure Barren (w : Watched) : Prop where
  maxmsg : w.session.s.mq.mqAttr.mqMaxmsg = 0
  curmsgs : w.session.s.mq.mqAttr.mqCurmsgs = 0
  accepted : w.session.accepted = []
  delivered : w.session.delivered = []
  accesses : w.accesses = []

theorem Barren.safe (h : Barren w) (base size : Nat) : w.Safe base size 0 where
  inside := by
    rw [h.accesses]
    exact nofun
  bounded := by
    rw [h.accepted, h.delivered]
    exact le_rfl

theorem Barren.step {call : Call} (h : Barren w) (hstep : w.call call = some w') : Barren w' := by
  obtain ⟨session, hcall, rfl⟩ := Option.map_eq_some_iff.mp hstep
  have hfull : w.session.s.mq.mqAttr.mqMaxmsg ≤ w.session.s.mq.mqAttr.mqCurmsgs := by
    rw [h.maxmsg, h.curmsgs]
  cases call with
  | send msg =>
    obtain ⟨⟨s', ret⟩, hsend, rfl⟩ := Option.map_eq_some_iff.mp hcall
    have hblock := mqSend_block hsend
    rw [mqEnqueue, if_pos hfull, Prod.mk.injEq, Prod.mk.injEq] at hblock
    obtain ⟨-, hmq, hret⟩ := hblock
    refine ⟨hmq ▸ h.maxmsg, hmq ▸ h.curmsgs, ?_, h.delivered, ?_⟩
    · dsimp only
      rw [h.accepted, ← hret, if_neg einval_ne_zero]
      rfl
    · rw [h.accesses, Call.accesses, sendAccesses, if_pos hfull]
      rfl
  | receive =>
    obtain ⟨⟨s', received⟩, hreceive, rfl⟩ := Option.map_eq_some_iff.mp hcall
    have hblock := mqReceive_block hreceive
    rw [mqDequeue, if_pos h.curmsgs, Prod.mk.injEq, Prod.mk.injEq] at hblock
    obtain ⟨-, hmq, hreceived⟩ := hblock
    refine ⟨hmq ▸ h.maxmsg, hmq ▸ h.curmsgs, h.accepted, ?_, ?_⟩
    · dsimp only
      rw [h.delivered, ← hreceived]
      rfl
    · rw [h.accesses, Call.accesses, receiveAccesses, if_pos h.curmsgs]
      rfl
  | elsewhere kernel mem =>
    cases hcall
    exact ⟨h.maxmsg, h.curmsgs, h.accepted, h.delivered, by rw [h.accesses]; rfl⟩

/-! What `mq_open` leaves. -/

variable {attr : MqAttr}

structure Fresh (attr : MqAttr) (s : MqState) : Prop where
  maxmsg : s.mq.mqAttr.mqMaxmsg = attr.mqMaxmsg
  msgsize : s.mq.mqAttr.mqMsgsize = attr.mqMsgsize
  curmsgs : s.mq.mqAttr.mqCurmsgs = 0
  pbufSize : s.mq.mqPbufSize = attr.bufferSize
  sendPtr : s.mq.sendPtr = s.mq.mqPbuf
  recvPtr : s.mq.recvPtr = s.mq.mqPbuf
  cleared : ∃ mem, s.mem = write mem s.mq.mqPbuf (List.replicate s.mq.mqPbufSize 0)
  ready : Ready s (sizeT attr.mqMaxmsg) 0

theorem Created.fresh (h : Created attr s) : Fresh attr s := by
  obtain ⟨k, mem, name, flag, mode, buffer, objects, hopen⟩ := h.returned
  obtain ⟨-, p, o, k₁, -, -, hmq, hmem, -⟩ := mqOpen_ok hopen
  have hpbuf : s.mq.mqPbuf = p := by rw [hmq]; rfl
  rw [← hpbuf] at hmem
  refine ⟨?_, ?_, ?_, ?_, ?_, ?_, ⟨mem, hmem⟩, ready_of_mqOpen hopen⟩
  all_goals
    rw [hmq]
    rfl

theorem Fresh.slotted (h : Fresh attr s) (hpos : 0 < attr.mqMaxmsg)
    (hfits : attr.slotSize ≤ attr.bufferSize) (hdvd : attr.slotSize ∣ attr.bufferSize)
    (hbelow : s.mq.mqPbuf + s.mq.mqPbufSize < 2 ^ 32) :
    Slotted s.mq.mqPbuf (sizeT attr.mqMsgsize) (attr.bufferSize / attr.slotSize) attr.mqMaxmsg
      (Watched.start s) := by
  have hslot : 0 < attr.slotSize := Nat.add_pos_left (by decide) _
  have hexact : attr.slotSize * (attr.bufferSize / attr.slotSize) = attr.bufferSize :=
    Nat.mul_div_cancel' hdvd
  have hslots : 0 < attr.bufferSize / attr.slotSize := Nat.div_pos hfits hslot
  have hlayout : Layout s.mq.mqPbuf (sizeT attr.mqMsgsize) (attr.bufferSize / attr.slotSize)
      s.mq := by
    refine ⟨rfl, by rw [h.msgsize], ?_, hslots, ?_⟩
    · rw [h.pbufSize]
      exact hexact.symm
    · rw [h.pbufSize] at hbelow
      exact (congrArg (s.mq.mqPbuf + ·) hexact).trans_lt hbelow
  have hfirst : s.mq.mqPbuf = slotAddr s.mq.mqPbuf (sizeT attr.mqMsgsize) 0 := by
    rw [slotAddr, Nat.mul_zero, Nat.add_zero]
  refine ⟨hlayout, h.maxmsg, ⟨0, hslots, h.sendPtr.trans hfirst⟩,
    ⟨0, hslots, h.recvPtr.trans hfirst⟩, ?_, h.curmsgs, ?_, ?_⟩
  · intro j hj hused
    obtain ⟨mem, hmem⟩ := h.cleared
    refine absurd ?_ hused
    change load32 s.mem _ = 0
    rw [hmem]
    exact used_clear hlayout.pbufSize hj
  · change s.mq.mqAttr.mqCurmsgs ≤ _
    rw [h.curmsgs]
    exact hpos.le
  · intro access haccess
    exact absurd haccess List.not_mem_nil

theorem Created.safe_of_sound (h : Created attr s) (hsound : attr.Sound)
    (hrun : Reaches Watched.call Watched.Allowed (Watched.start s) w) :
    w.Safe s.mq.mqPbuf s.mq.mqPbufSize attr.mqMaxmsg := by
  have hfresh := h.fresh
  rcases hsound with hzero | ⟨hpos, hfits, hdvd⟩
  · have hbarren : Barren w := by
      apply hrun.invariant Barren
      · exact ⟨hfresh.maxmsg.trans hzero, hfresh.curmsgs, rfl, rfl, rfl⟩
      · intro w call w' hw _ hstep
        exact hw.step hstep
    rw [hzero]
    exact hbarren.safe _ _
  · have hslotted := hrun.invariant (Slotted s.mq.mqPbuf (sizeT attr.mqMsgsize)
      (attr.bufferSize / attr.slotSize) attr.mqMaxmsg) (hfresh.slotted hpos hfits hdvd h.below)
      fun _ _ _ hw hok hstep => hw.step hok hstep
    have hsafe := hslotted.safe
    rw [hfresh.pbufSize]
    rwa [show (sizeofMqMsg + sizeT attr.mqMsgsize) * (attr.bufferSize / attr.slotSize) =
      attr.bufferSize from Nat.mul_div_cancel' hdvd] at hsafe

/-! Attributes that are not sound: empty messages fill the slots up to the one that
does not fit, and a message of the full length leaves the buffer. -/

/-- After `k` empty messages; the bytes behind their slots are still clear. -/
structure Filled (attr : MqAttr) (base k : Nat) (s : MqState) : Prop where
  maxmsg : s.mq.mqAttr.mqMaxmsg = attr.mqMaxmsg
  msgsize : s.mq.mqAttr.mqMsgsize = attr.mqMsgsize
  curmsgs : s.mq.mqAttr.mqCurmsgs = k
  pbuf : s.mq.mqPbuf = base
  pbufSize : s.mq.mqPbufSize = attr.bufferSize
  sendPtr : s.mq.sendPtr = slotAddr base (sizeT attr.mqMsgsize) k
  clear : ∀ x, slotAddr base (sizeT attr.mqMsgsize) k ≤ x → x < base + attr.bufferSize →
    s.mem x = 0
  ready : Ready s (sizeT attr.mqMaxmsg) k

variable {k : Nat}

theorem load32_zero {a : Nat} (h : ∀ x, a ≤ x → x < a + 4 → mem x = 0) : load32 mem a = 0 := by
  unfold load32
  rw [h a (by omega) (by omega), h (a + 1) (by omega) (by omega), h (a + 2) (by omega) (by omega),
    h (a + 3) (by omega) (by omega)]
  rfl

theorem Fresh.filled (h : Fresh attr s) : Filled attr s.mq.mqPbuf 0 s where
  maxmsg := h.maxmsg
  msgsize := h.msgsize
  curmsgs := h.curmsgs
  pbuf := rfl
  pbufSize := h.pbufSize
  sendPtr := by rw [h.sendPtr, slotAddr, Nat.mul_zero, Nat.add_zero]
  clear x hx hx' := by
    obtain ⟨mem, hmem⟩ := h.cleared
    rw [slotAddr, Nat.mul_zero, Nat.add_zero] at hx
    rw [← h.pbufSize] at hx'
    obtain ⟨i, rfl⟩ := Nat.exists_eq_add_of_le hx
    rw [hmem, write_inside (by rw [List.length_replicate]; omega), List.getElem_replicate]
  ready := h.ready

/-- The flag of a slot whose header is in the buffer is clear. -/
theorem Filled.free (h : Filled attr base k s)
    (hheader : slotAddr base (sizeT attr.mqMsgsize) k + sizeofMqMsg ≤ base + attr.bufferSize) :
    load32 s.mem (s.mq.sendPtr + 4) = 0 := by
  unfold sizeofMqMsg at hheader
  rw [h.sendPtr]
  apply load32_zero
  intro x hx hx'
  exact h.clear x (by omega) (by omega)

/-- One more empty message, if there is a slot and some space behind it. -/
theorem Filled.succ (h : Filled attr base k s) (hlong : IsLong attr.mqMaxmsg)
    (hroom : (k : Int) < attr.mqMaxmsg)
    (hspace : slotAddr base (sizeT attr.mqMsgsize) (k + 1) < base + attr.bufferSize)
    (hbelow : base + attr.bufferSize < 2 ^ 32) :
    ∃ s', mqSend s [] = some (s', 0) ∧ Filled attr base (k + 1) s' := by
  have hslot := hspace
  rw [slotAddr_succ] at hslot
  have hfree := h.free (by omega)
  have hcount : s.mq.mqAttr.mqCurmsgs < s.mq.mqAttr.mqMaxmsg := by
    rw [h.curmsgs, h.maxmsg]
    exact hroom
  have hempty : ([] : Message).length ≤ sizeT s.mq.mqAttr.mqMsgsize := Nat.zero_le _
  have hblock := mqEnqueue_accepted hcount hempty hfree
  have hunits : k < sizeT attr.mqMaxmsg := by
    obtain ⟨-, hhigh⟩ := hlong
    unfold sizeT
    omega
  obtain ⟨s', hsend, hmem, hmq, hready, -⟩ := mqSend_ready h.ready [] fun _ => hunits
  rw [hblock] at hsend hmem hmq hready
  dsimp only at hmem hmq
  have hnext : s.mq.nextSlot s.mq.sendPtr = slotAddr base (sizeT attr.mqMsgsize) (k + 1) := by
    rw [nextSlot_eq, Mq.behind, Mq.wrapped, h.sendPtr, h.msgsize, h.pbuf, h.pbufSize,
      slotAddr_succ, Nat.mod_eq_of_lt hbelow, Nat.mod_eq_of_lt (by omega), if_neg (by omega)]
    omega
  refine ⟨s', hsend, ?_⟩
  refine ⟨?_, ?_, ?_, ?_, ?_, ?_, ?_, hready⟩
  · rw [hmq]
    exact h.maxmsg
  · rw [hmq]
    exact h.msgsize
  · rw [hmq]
    exact congrArg (· + 1) h.curmsgs
  · rw [hmq]
    exact h.pbuf
  · rw [hmq]
    exact h.pbufSize
  · rw [hmq]
    exact hnext
  · intro x hx hx'
    rw [slotAddr_succ] at hx
    rw [hmem, h.sendPtr, fillSlot_sameOutside (Nat.zero_le _) x (.inr hx)]
    exact h.clear x (by omega) hx'

/-- A message of the full length in a slot that does not fit. -/
theorem Filled.escapes (h : Filled attr base k s) (hroom : (k : Int) < attr.mqMaxmsg)
    (hout : base + attr.bufferSize <
      slotAddr base (sizeT attr.mqMsgsize) k + (sizeofMqMsg + sizeT attr.mqMsgsize)) :
    ∃ access ∈ sendAccesses s.mem s.mq (List.replicate (sizeT attr.mqMsgsize) 0),
      ∃ x, access.1 ≤ x ∧ x < access.1 + access.2 ∧ base + attr.bufferSize ≤ x := by
  have hcount : ¬ s.mq.mqAttr.mqMaxmsg ≤ s.mq.mqAttr.mqCurmsgs := by
    rw [h.curmsgs, h.maxmsg]
    exact not_le.mpr hroom
  have hlength : ¬ sizeT s.mq.mqAttr.mqMsgsize <
      (List.replicate (sizeT attr.mqMsgsize) (0 : Byte)).length := by
    rw [h.msgsize, List.length_replicate]
    exact lt_irrefl _
  have hptr := h.sendPtr
  rw [sendAccesses, if_neg hcount, if_neg hlength]
  dsimp only
  have hheader : sizeofMqMsg = 8 := rfl
  by_cases hin : slotAddr base (sizeT attr.mqMsgsize) k + sizeofMqMsg ≤ base + attr.bufferSize
  · -- the payload leaves the buffer
    rw [if_pos (h.free hin)]
    refine ⟨(s.mq.sendPtr + sizeofMqMsg, sizeT attr.mqMsgsize), by simp, base + attr.bufferSize,
      ?_, ?_, le_rfl⟩
    · rw [hptr]
      exact hin
    · dsimp only
      omega
  · -- the header does
    refine ⟨(s.mq.sendPtr + 4, 4), List.mem_cons_self, s.mq.sendPtr + 7, ?_, ?_, ?_⟩
    · dsimp only
      omega
    · dsimp only
      omega
    · rw [hptr]
      omega

theorem Watched.call_send {w : Watched} {s' : MqState}
    (hsend : mqSend w.session.s msg = some (s', ret)) :
    w.call (.send msg) = some ⟨{ w.session with
      s := s', accepted := w.session.accepted ++ if ret = 0 then [msg] else [] },
      w.accesses ++ sendAccesses w.session.s.mem w.session.s.mq msg⟩ := by
  rw [Watched.call, Session.call, hsend]
  rfl

/-- As many empty messages as there are whole slots. -/
theorem Fresh.fill (h : Fresh attr s) (hlong : IsLong attr.mqMaxmsg)
    (hbelow : s.mq.mqPbuf + attr.bufferSize < 2 ^ 32) (k : Nat)
    (hroom : (k : Int) ≤ attr.mqMaxmsg)
    (hspace : ∀ j < k, attr.slotSize * (j + 1) < attr.bufferSize) :
    ∃ w, Reaches Watched.call Watched.Allowed (Watched.start s) w ∧
      Filled attr s.mq.mqPbuf k w.session.s := by
  induction k with
  | zero => exact ⟨Watched.start s, .refl, h.filled⟩
  | succ k ih =>
    obtain ⟨w, hrun, hfilled⟩ := ih (by omega) fun j hj => hspace j (by omega)
    have hslot := Nat.add_lt_add_left (hspace k (Nat.lt_succ_self k)) s.mq.mqPbuf
    obtain ⟨s', hsend, hfilled'⟩ := hfilled.succ hlong (by omega) hslot hbelow
    have hok : w.Allowed (.send []) := trivial
    exact ⟨_, hrun.tail hok (Watched.call_send hsend), hfilled'⟩

/-- A buffer that is not a whole number of slots has fewer than `mq_maxmsg`. -/
theorem slots_lt_maxmsg (hlong : IsLong attr.mqMaxmsg) (hpos : 0 < attr.mqMaxmsg)
    (hunsound : ∀ j, attr.slotSize * (j + 1) ≠ attr.bufferSize) :
    ((attr.bufferSize / attr.slotSize : Nat) : Int) < attr.mqMaxmsg := by
  have hslot : 0 < attr.slotSize := Nat.add_pos_left (by decide) _
  have hmax : sizeT attr.mqMaxmsg = attr.mqMaxmsg.toNat := by
    obtain ⟨-, hhigh⟩ := hlong
    unfold sizeT
    omega
  have hle : attr.bufferSize ≤ attr.slotSize * attr.mqMaxmsg.toNat := by
    rw [← hmax]
    exact Nat.mod_le _ _
  have hlt : attr.bufferSize / attr.slotSize < attr.mqMaxmsg.toNat := by
    refine Nat.div_lt_of_lt_mul (lt_of_le_of_ne hle fun heq => ?_)
    apply hunsound (attr.mqMaxmsg.toNat - 1)
    rw [Nat.sub_add_cancel (by omega), heq]
  omega

theorem Created.sound_of_safe (h : Created attr s)
    (hsafe : ∀ w, Reaches Watched.call Watched.Allowed (Watched.start s) w →
      w.Safe s.mq.mqPbuf s.mq.mqPbufSize attr.mqMaxmsg) : attr.Sound := by
  have hfresh := h.fresh
  have hbelow := h.below
  rw [hfresh.pbufSize] at hsafe hbelow
  have hnonneg : 0 ≤ attr.mqMaxmsg := (hsafe _ .refl).bounded
  rcases hnonneg.eq_or_lt with hzero | hpos
  · exact .inl hzero.symm
  refine .inr ⟨hpos, ?_⟩
  by_contra hnot
  have hunsound : ∀ j, attr.slotSize * (j + 1) ≠ attr.bufferSize := by
    intro j heq
    apply hnot
    rw [← heq]
    exact ⟨Nat.le_mul_of_pos_right _ j.succ_pos, Nat.dvd_mul_right _ _⟩
  have hslot : 0 < attr.slotSize := Nat.add_pos_left (by decide) _
  have hroom := slots_lt_maxmsg h.maxmsg hpos hunsound
  have hspace : ∀ j < attr.bufferSize / attr.slotSize,
      attr.slotSize * (j + 1) < attr.bufferSize := by
    intro j hj
    have hle := Nat.mul_le_of_le_div _ _ _ (Nat.succ_le_of_lt hj)
    rw [Nat.mul_comm] at hle
    exact lt_of_le_of_ne hle (hunsound j)
  obtain ⟨w, hrun, hfilled⟩ := hfresh.fill h.maxmsg hbelow _ hroom.le hspace
  have hout : s.mq.mqPbuf + attr.bufferSize <
      slotAddr s.mq.mqPbuf (sizeT attr.mqMsgsize) (attr.bufferSize / attr.slotSize) +
        (sizeofMqMsg + sizeT attr.mqMsgsize) := by
    rw [← slotAddr_succ]
    exact Nat.add_lt_add_left (Nat.lt_mul_div_succ _ hslot) _
  obtain ⟨access, haccess, x, hx, hx', hoff⟩ := hfilled.escapes hroom hout
  have hunits : attr.bufferSize / attr.slotSize < sizeT attr.mqMaxmsg := by
    obtain ⟨-, hhigh⟩ := h.maxmsg
    unfold sizeT
    omega
  obtain ⟨s', hsend, -⟩ := mqSend_ready hfilled.ready
    (List.replicate (sizeT attr.mqMsgsize) 0) fun _ => hunits
  have hok : w.Allowed (.send (List.replicate (sizeT attr.mqMsgsize) 0)) := trivial
  have hlast := hsafe _ (hrun.tail hok (Watched.call_send hsend))
  have hinside := hlast.inside access (List.mem_append_right _ haccess) x hx hx'
  omega

/-- A queue that `mq_open` has returned is safe, in every run of calls, exactly if
its attributes are sound. -/
theorem attributes_safe_iff (h : Created attr s) :
    (∀ w, Reaches Watched.call Watched.Allowed (Watched.start s) w →
      w.Safe s.mq.mqPbuf s.mq.mqPbufSize attr.mqMaxmsg) ↔ attr.Sound :=
  ⟨h.sound_of_safe, fun hsound _ hrun => h.safe_of_sound hsound hrun⟩

/-- A product that wraps around to -8 passes the limit, and the buffer has eight bytes
for slots of 2^31 + 4. -/
example : MqAttr.product ⟨0, 2, 0x7ffffffc, 0⟩ = -8 ∧
    MqAttr.bufferSize ⟨0, 2, 0x7ffffffc, 0⟩ = 8 ∧ ¬ MqAttr.Sound ⟨0, 2, 0x7ffffffc, 0⟩ := by
  decide

theorem smallQueue_safe :
    ∃ s, smallQueue = .ok s ∧ MqAttr.Sound ⟨0, 2, 4, 0⟩ ∧
      ∀ w, Reaches Watched.call Watched.Allowed (Watched.start s) w →
        w.Safe s.mq.mqPbuf s.mq.mqPbufSize 2 := by
  have hend : smallQueue.toOption.map (fun s => s.mq.mqPbuf + s.mq.mqPbufSize) =
      some 0x20000028 := by decide +kernel
  obtain ⟨s, hs, hend⟩ := Option.map_eq_some_iff.mp hend
  have hopen := eq_ok_of_toOption hs
  have hopened : Opened ⟨0, 2, 4, 0⟩ s :=
    ⟨⟨_, _, _, _, _, _, _, hopen⟩, hend.trans_lt (by decide)⟩
  have hcreated := hopened.created (by unfold IsLong; decide) (by unfold IsLong; decide)
  have hsound : MqAttr.Sound ⟨0, 2, 4, 0⟩ := by decide
  exact ⟨s, hopen, hsound, (attributes_safe_iff hcreated).mpr hsound⟩

/-- Three messages of at most -4 bytes: the product is -12 and the buffer has 12
bytes. -/
def negativeQueue : Except Int MqState :=
  mqOpen clearedState (fun _ => 0xff) true O_CREAT O_CREAT ⟨0, 3, -4, 0⟩ (some 0x20000010)
    (some ⟨0, 0, 1⟩)

/-- As a `size_t` the limit of a message is 2^32 - 4, and one of eight bytes leaves
the buffer. -/
theorem negativeQueue_overflows :
    ∃ s w, negativeQueue = .ok s ∧ s.mq.mqPbufSize = 12 ∧
      runInputs Watched.call Watched.Allowed [.send (List.replicate 8 0xaa)] (Watched.start s) =
        some w ∧
      (s.mq.mqPbuf + 8, 8) ∈ w.accesses ∧ ¬ w.Safe s.mq.mqPbuf s.mq.mqPbufSize 3 := by
  have hfacts : (negativeQueue.toOption.bind fun s =>
      (runInputs Watched.call Watched.Allowed [.send (List.replicate 8 0xaa)]
        (Watched.start s)).map fun w =>
          (s.mq.mqPbufSize, decide ((s.mq.mqPbuf + 8, 8) ∈ w.accesses))) = some (12, true) := by
    decide +kernel
  obtain ⟨s, hs, hrun⟩ := Option.bind_eq_some_iff.mp hfacts
  obtain ⟨w, hw, hview⟩ := Option.map_eq_some_iff.mp hrun
  rw [Prod.mk.injEq, decide_eq_true_eq] at hview
  refine ⟨s, w, eq_ok_of_toOption hs, hview.1, hw, hview.2, fun hsafe => ?_⟩
  have hinside := hsafe.inside _ hview.2 (s.mq.mqPbuf + 12) (by dsimp only; omega)
    (by dsimp only; omega)
  omega

end PosixRtos.Mqueue
