import PosixRtos.Mqueue.Queue
import PosixRtos.Library.RingBuffer

/-! A message queue is a bounded queue of byte strings. `Stores` relates the
buffer, the pointers and the counters to the list of messages; the two blocks of
`mq_send` and `mq_receive` follow the operations of the list. -/
namespace PosixRtos.Mqueue

open PosixRtos.Kernel PosixRtos.Library.ByteMemory PosixRtos.Library.RingBuffer

/-! The abstract queue. -/

abbrev Message := List Byte

/-- A queue of at most `maxmsg` messages of at most `msgsize` bytes. -/
def fifoSend (maxmsg msgsize : Nat) (q : List Message) (msg : Message) : List Message × Int :=
  if msg.length ≤ msgsize ∧ q.length < maxmsg then (q ++ [msg], 0) else (q, -EINVAL)

def fifoReceive (q : List Message) : List Message × Option Message := (q.tail, q.head?)

/-! The buffer. -/

variable {mem : Memory} {mq : Mq} {base msgsize maxmsg : Nat} {q : List Message} {msg : Message}
  {i j : Nat}

def slotAddr (base msgsize j : Nat) : Nat := base + (sizeofMqMsg + msgsize) * j

/-- The message in slot `j`, if the slot is in use. -/
def slotMessage (mem : Memory) (base msgsize j : Nat) : Option Message :=
  let p := slotAddr base msgsize j
  if load32 mem (p + 4) = 0 then none else some (read mem (p + sizeofMqMsg) (load32 mem p))

/-- No slot in use claims more bytes than it has. -/
def Sized (mem : Memory) (base msgsize maxmsg : Nat) : Prop :=
  ∀ j < maxmsg, load32 mem (slotAddr base msgsize j + 4) ≠ 0 →
    load32 mem (slotAddr base msgsize j) ≤ msgsize

theorem slotAddr_succ (base msgsize i : Nat) :
    slotAddr base msgsize (i + 1) = slotAddr base msgsize i + (sizeofMqMsg + msgsize) := by
  unfold slotAddr
  rw [Nat.mul_succ, Nat.add_assoc]

theorem slotAddr_mono (base msgsize : Nat) (hij : i ≤ j) :
    slotAddr base msgsize i ≤ slotAddr base msgsize j := by
  unfold slotAddr
  have := Nat.mul_le_mul_left (sizeofMqMsg + msgsize) hij
  omega

theorem slotAddr_apart (base msgsize : Nat) (hij : i ≠ j) :
    slotAddr base msgsize i + (sizeofMqMsg + msgsize) ≤ slotAddr base msgsize j ∨
      slotAddr base msgsize j + (sizeofMqMsg + msgsize) ≤ slotAddr base msgsize i := by
  rw [← slotAddr_succ, ← slotAddr_succ]
  rcases Nat.lt_or_gt_of_ne hij with h | h
  · exact .inl (slotAddr_mono base msgsize h)
  · exact .inr (slotAddr_mono base msgsize h)

/-- Slot `j` has the same bytes in both. -/
def SameSlot (mem mem' : Memory) (base msgsize j : Nat) : Prop :=
  ∀ x, slotAddr base msgsize j ≤ x → x < slotAddr base msgsize j + (sizeofMqMsg + msgsize) →
    mem' x = mem x

/-- Memory that differs inside slot `i` only. -/
def SameOutside (mem mem' : Memory) (base msgsize i : Nat) : Prop :=
  ∀ x, x < slotAddr base msgsize i ∨ slotAddr base msgsize i + (sizeofMqMsg + msgsize) ≤ x →
    mem' x = mem x

theorem SameOutside.sameSlot {mem' : Memory} (h : SameOutside mem mem' base msgsize i)
    (hji : j ≠ i) : SameSlot mem mem' base msgsize j := by
  have hapart := slotAddr_apart base msgsize hji
  intro x hx hx'
  apply h
  omega

theorem SameSlot.words {mem' : Memory} (h : SameSlot mem mem' base msgsize j) :
    load32 mem' (slotAddr base msgsize j) = load32 mem (slotAddr base msgsize j) ∧
      load32 mem' (slotAddr base msgsize j + 4) = load32 mem (slotAddr base msgsize j + 4) := by
  have hheader : sizeofMqMsg = 8 := rfl
  constructor
  · apply load32_congr
    intro x hx hx'
    exact h x hx (by omega)
  · apply load32_congr
    intro x hx hx'
    exact h x (by omega) (by omega)

theorem SameSlot.slotMessage {mem' : Memory} (h : SameSlot mem mem' base msgsize j)
    (hsized : Sized mem base msgsize maxmsg) (hj : j < maxmsg) :
    slotMessage mem' base msgsize j = slotMessage mem base msgsize j := by
  obtain ⟨hsize, hused⟩ := h.words
  unfold Mqueue.slotMessage
  simp only [hsize, hused]
  split
  · rfl
  next huse =>
  have hle := hsized j hj huse
  congr 1
  apply read_congr
  intro x hx hx'
  apply h
  · omega
  · omega

/-- The buffer and the pointers of `mq` hold the messages `q`. -/
structure Stores (mem : Memory) (mq : Mq) (maxmsg msgsize : Nat) (q : List Message) : Prop where
  maxmsg_eq : mq.mqAttr.mqMaxmsg = maxmsg
  msgsize_eq : mq.mqAttr.mqMsgsize = msgsize
  curmsgs_eq : mq.mqAttr.mqCurmsgs = q.length
  small : msgsize < 2 ^ 32
  pbufSize : mq.mqPbufSize = (sizeofMqMsg + msgsize) * maxmsg
  below : mq.mqPbuf + mq.mqPbufSize < 2 ^ 32
  sized : Sized mem mq.mqPbuf msgsize maxmsg
  ring : ∃ r, Holds maxmsg r (slotMessage mem mq.mqPbuf msgsize) q ∧
    mq.recvPtr = slotAddr mq.mqPbuf msgsize r ∧
    mq.sendPtr = slotAddr mq.mqPbuf msgsize ((r + q.length) % maxmsg)

theorem sizeT_natCast {n : Nat} (hn : n < 2 ^ 32) : sizeT n = n := by
  unfold sizeT
  omega

/-! The pointers. `nextSlot` adds the length of a slot and then compares. -/

/-- The pointer behind the slot, before it is compared with the end of the buffer. -/
def Mq.behind (mq : Mq) (p : Nat) : Nat :=
  (p + sizeT mq.mqAttr.mqMsgsize + sizeofMqMsg) % 2 ^ 32

def Mq.wrapped (mq : Mq) (p : Nat) : Nat :=
  if (mq.mqPbuf + mq.mqPbufSize) % 2 ^ 32 ≤ p then mq.mqPbuf else p

theorem nextSlot_eq (mq : Mq) (p : Nat) : mq.nextSlot p = mq.wrapped (mq.behind p) := rfl

/-- How the buffer is divided into `n` slots of messages of `size` bytes. -/
structure Layout (base size n : Nat) (mq : Mq) : Prop where
  pbuf : mq.mqPbuf = base
  msgsize : sizeT mq.mqAttr.mqMsgsize = size
  pbufSize : mq.mqPbufSize = (sizeofMqMsg + size) * n
  slots : 0 < n
  below : slotAddr base size n < 2 ^ 32

theorem Layout.behind {size n : Nat} (h : Layout base size n mq) (hi : i < n) :
    mq.behind (slotAddr base size i) = slotAddr base size (i + 1) := by
  have hle := slotAddr_mono base size (show i + 1 ≤ n from hi)
  have hbelow := h.below
  rw [slotAddr_succ] at hle
  unfold Mq.behind
  rw [h.msgsize, slotAddr_succ, Nat.mod_eq_of_lt (by omega)]
  omega

theorem Layout.wrapped {size n : Nat} (h : Layout base size n mq) (hi : i < n) :
    mq.wrapped (slotAddr base size (i + 1)) = slotAddr base size ((i + 1) % n) := by
  have hend : mq.mqPbuf + mq.mqPbufSize = slotAddr base size n := by
    rw [h.pbuf, h.pbufSize, slotAddr]
  unfold Mq.wrapped
  rw [hend, Nat.mod_eq_of_lt h.below]
  rcases Nat.lt_or_ge (i + 1) n with hlt | hge
  · have hmore := slotAddr_mono base size (show i + 1 + 1 ≤ n from hlt)
    rw [slotAddr_succ] at hmore
    rw [Nat.mod_eq_of_lt hlt, if_neg (by unfold sizeofMqMsg at hmore; omega)]
  · have hlast : i + 1 = n := by omega
    rw [hlast, Nat.mod_self, if_pos le_rfl, h.pbuf, slotAddr, Nat.mul_zero, Nat.add_zero]

theorem Stores.layout (hs : Stores mem mq maxmsg msgsize q) (hpos : 0 < maxmsg) :
    Layout mq.mqPbuf msgsize maxmsg mq where
  pbuf := rfl
  msgsize := by rw [hs.msgsize_eq, sizeT_natCast hs.small]
  pbufSize := hs.pbufSize
  slots := hpos
  below := by
    have hbelow := hs.below
    rwa [hs.pbufSize] at hbelow

/-- The pointer steps from slot to slot and wraps at the end of the buffer. -/
theorem Stores.nextSlot (hs : Stores mem mq maxmsg msgsize q) (hi : i < maxmsg) :
    mq.nextSlot (slotAddr mq.mqPbuf msgsize i) = slotAddr mq.mqPbuf msgsize ((i + 1) % maxmsg) := by
  have hlayout := hs.layout (by omega)
  rw [nextSlot_eq, hlayout.behind hi, hlayout.wrapped hi]

/-! What the stores into one slot do. -/

/-- The stores of `mq_send` into the slot at `p`. -/
def fillSlot (mem : Memory) (p : Nat) (msg : Message) : Memory :=
  store32 (write (store32 mem p msg.length) (p + sizeofMqMsg) msg) (p + 4) 1

theorem fillSlot_words (mem : Memory) (p : Nat) (hlen : msg.length < 2 ^ 32) :
    load32 (fillSlot mem p msg) p = msg.length ∧ load32 (fillSlot mem p msg) (p + 4) = 1 ∧
      read (fillSlot mem p msg) (p + sizeofMqMsg) msg.length = msg := by
  unfold fillSlot
  refine ⟨?_, load32_store32 (by decide), ?_⟩
  · unfold store32
    rw [load32_write_apart (by omega), load32_write_apart (by unfold sizeofMqMsg; omega)]
    exact load32_store32 hlen
  · unfold store32
    rw [read_write_apart (by simp only [length_wordBytes]; unfold sizeofMqMsg; omega), read_write]

theorem fillSlot_sameOutside (hlen : msg.length ≤ msgsize) :
    SameOutside mem (fillSlot mem (slotAddr base msgsize i) msg) base msgsize i := by
  intro x hx
  unfold fillSlot store32
  unfold sizeofMqMsg at *
  rw [write_outside (by simp only [length_wordBytes]; omega), write_outside (by omega),
    write_outside (by simp only [length_wordBytes]; omega)]

theorem slotMessage_fillSlot (hlen : msg.length < 2 ^ 32) :
    slotMessage (fillSlot mem (slotAddr base msgsize i) msg) base msgsize i = some msg := by
  obtain ⟨hsize, hused, hread⟩ := fillSlot_words mem (slotAddr base msgsize i) hlen
  simp only [slotMessage, hused, hsize, one_ne_zero, if_false, hread]

theorem clearSlot_sameOutside (mem : Memory) (base msgsize i : Nat) :
    SameOutside mem (store32 mem (slotAddr base msgsize i + 4) 0) base msgsize i := by
  intro x hx
  unfold store32
  unfold sizeofMqMsg at hx
  exact write_outside (by simp only [length_wordBytes]; omega)

theorem slotMessage_clearSlot (mem : Memory) (base msgsize i : Nat) :
    slotMessage (store32 mem (slotAddr base msgsize i + 4) 0) base msgsize i = none := by
  simp [slotMessage, load32_store32]

/-- A change inside one slot, seen on all slots. -/
theorem SameOutside.update {mem' : Memory} (h : SameOutside mem mem' base msgsize i)
    (hsized : Sized mem base msgsize maxmsg) {content : Option Message}
    (hi : Mqueue.slotMessage mem' base msgsize i = content) :
    ∀ j < maxmsg, Mqueue.slotMessage mem' base msgsize j =
      Function.update (Mqueue.slotMessage mem base msgsize) i content j := by
  intro j hj
  by_cases hji : j = i
  · subst hji
    rw [Function.update_self, hi]
  · rw [Function.update_of_ne hji, (h.sameSlot hji).slotMessage hsized hj]

theorem SameOutside.sized {mem' : Memory} (h : SameOutside mem mem' base msgsize i)
    (hsized : Sized mem base msgsize maxmsg)
    (hi : load32 mem' (slotAddr base msgsize i + 4) ≠ 0 →
      load32 mem' (slotAddr base msgsize i) ≤ msgsize) : Sized mem' base msgsize maxmsg := by
  intro j hj
  by_cases hji : j = i
  · subst hji
    exact hi
  · obtain ⟨hsize, hused⟩ := (h.sameSlot hji).words
    rw [hsize, hused]
    exact hsized j hj

/-! The two blocks follow the abstract queue. -/

/-- What a block may not change. -/
structure SameQueue (mq mq' : Mq) : Prop where
  objects : mq'.objects = mq.objects
  blocking : mq'.blocking = mq.blocking

theorem mqEnqueue_spec (hs : Stores mem mq maxmsg msgsize q) (msg : Message) :
    Stores (mqEnqueue mem mq msg).1 (mqEnqueue mem mq msg).2.1 maxmsg msgsize
        (fifoSend maxmsg msgsize q msg).1 ∧
      (mqEnqueue mem mq msg).2.2 = (fifoSend maxmsg msgsize q msg).2 ∧
      SameQueue mq (mqEnqueue mem mq msg).2.1 := by
  have hfull : mq.mqAttr.mqMaxmsg ≤ mq.mqAttr.mqCurmsgs ↔ maxmsg ≤ q.length := by
    rw [hs.maxmsg_eq, hs.curmsgs_eq]
    exact Int.ofNat_le
  have hsize : sizeT mq.mqAttr.mqMsgsize = msgsize := by
    rw [hs.msgsize_eq, sizeT_natCast hs.small]
  unfold mqEnqueue fifoSend
  rw [hsize]
  by_cases hroom : maxmsg ≤ q.length
  · rw [if_pos (hfull.mpr hroom), if_neg (by omega)]
    exact ⟨hs, rfl, rfl, rfl⟩
  rw [if_neg fun h => hroom (hfull.mp h)]
  by_cases hlong : msgsize < msg.length
  · rw [if_pos hlong, if_neg (by omega)]
    exact ⟨hs, rfl, rfl, rfl⟩
  rw [if_neg hlong]
  obtain ⟨r, hring, hrecv, hsend⟩ := hs.ring
  have hindex : (r + q.length) % maxmsg < maxmsg := Nat.mod_lt _ (by omega)
  have hfree : load32 mem (mq.sendPtr + 4) = 0 := by
    have hbehind := hring.behind (by omega)
    rw [hsend]
    by_contra hused
    simp [slotMessage, hused] at hbehind
  have hfits : msg.length ≤ msgsize ∧ q.length < maxmsg := by omega
  dsimp only
  rw [if_pos hfree, if_pos hfits]
  refine ⟨?_, rfl, rfl, rfl⟩
  have hlen : msg.length < 2 ^ 32 := by
    have := hs.small
    omega
  have hsame : SameOutside mem (fillSlot mem mq.sendPtr msg) mq.mqPbuf msgsize
      ((r + q.length) % maxmsg) := by
    rw [hsend]
    exact fillSlot_sameOutside (by omega)
  have hslot : slotMessage (fillSlot mem mq.sendPtr msg) mq.mqPbuf msgsize
      ((r + q.length) % maxmsg) = some msg := by
    rw [hsend]
    exact slotMessage_fillSlot hlen
  refine ⟨hs.maxmsg_eq, hs.msgsize_eq, ?_, hs.small, hs.pbufSize, hs.below, ?_, r, ?_, hrecv, ?_⟩
  · simp [hs.curmsgs_eq]
  · refine hsame.sized hs.sized fun _ => ?_
    rw [← hsend]
    exact (fillSlot_words mem mq.sendPtr hlen).1.trans_le (by omega)
  · exact (hring.push (by omega)).congr (hsame.update hs.sized hslot)
  · change mq.nextSlot mq.sendPtr = _
    rw [hsend, hs.nextSlot hindex, Nat.mod_add_mod,
      List.length_append, List.length_singleton, add_assoc]

/-- The slot the receive pointer is at holds the oldest message. -/
theorem Stores.first {rest : List Message} (hs : Stores mem mq maxmsg msgsize (msg :: rest)) :
    load32 mem (mq.recvPtr + 4) ≠ 0 ∧ load32 mem mq.recvPtr = msg.length ∧
      read mem (mq.recvPtr + sizeofMqMsg) (load32 mem mq.recvPtr) = msg := by
  obtain ⟨r, hring, hrecv, -⟩ := hs.ring
  have hfirst := hring.first
  rw [List.head?_cons, slotMessage, ← hrecv] at hfirst
  have hused : load32 mem (mq.recvPtr + 4) ≠ 0 := by
    intro hzero
    rw [if_pos hzero] at hfirst
    cases hfirst
  rw [if_neg hused] at hfirst
  have hbytes : read mem (mq.recvPtr + sizeofMqMsg) (load32 mem mq.recvPtr) = msg :=
    Option.some.inj hfirst
  refine ⟨hused, ?_, hbytes⟩
  rw [← hbytes, length_read]

theorem mqDequeue_spec (hs : Stores mem mq maxmsg msgsize q) :
    Stores (mqDequeue mem mq).1 (mqDequeue mem mq).2.1 maxmsg msgsize (fifoReceive q).1 ∧
      (mqDequeue mem mq).2.2 = (fifoReceive q).2.map (fun msg => (msg.length, msg)) ∧
      SameQueue mq (mqDequeue mem mq).2.1 := by
  unfold mqDequeue fifoReceive
  cases q with
  | nil =>
    have hzero : mq.mqAttr.mqCurmsgs = 0 := hs.curmsgs_eq
    rw [if_pos hzero]
    exact ⟨hs, rfl, rfl, rfl⟩
  | cons msg rest =>
    have hpos : mq.mqAttr.mqCurmsgs ≠ 0 := by
      rw [hs.curmsgs_eq, List.length_cons]
      omega
    rw [if_neg hpos]
    obtain ⟨r, hring, hrecv, hsend⟩ := hs.ring
    obtain ⟨hused, hlength, hbytes⟩ := hs.first
    simp only [ne_eq, hused, not_false_eq_true, if_true]
    refine ⟨?_, ?_, rfl, rfl⟩
    · have hsame := clearSlot_sameOutside mem mq.mqPbuf msgsize r
      have hslot := slotMessage_clearSlot mem mq.mqPbuf msgsize r
      rw [← hrecv] at hsame hslot
      refine ⟨hs.maxmsg_eq, hs.msgsize_eq, ?_, hs.small, hs.pbufSize, hs.below, ?_,
        (r + 1) % maxmsg, ?_, ?_, ?_⟩
      · simp [hs.curmsgs_eq]
      · refine hsame.sized hs.sized fun h => absurd ?_ h
        rw [← hrecv]
        exact load32_store32 (by decide)
      · exact hring.pop.congr (hsame.update hs.sized hslot)
      · change mq.nextSlot mq.recvPtr = _
        rw [hrecv, hs.nextSlot hring.start]
      · change mq.sendPtr = _
        rw [hsend, List.length_cons, List.tail_cons, Nat.mod_add_mod]
        congr 2
        omega
    · rw [hbytes, hlength]
      rfl

/-- A refused message leaves the buffer and the queue object as they are. -/
theorem mqEnqueue_refused (hret : (mqEnqueue mem mq msg).2.2 ≠ 0) :
    (mqEnqueue mem mq msg).1 = mem ∧ (mqEnqueue mem mq msg).2.1 = mq := by
  unfold mqEnqueue at hret ⊢
  split
  · exact ⟨rfl, rfl⟩
  next hroom =>
  split
  · exact ⟨rfl, rfl⟩
  next hlong =>
  rw [if_neg hroom, if_neg hlong] at hret
  dsimp only at hret ⊢
  split
  next hfree =>
    rw [if_pos hfree] at hret
    exact absurd rfl hret
  next => exact ⟨rfl, rfl⟩

end PosixRtos.Mqueue
