import PosixRtos.Mqueue.Ordered
import PosixRtos.Net.Pbuf

/-! `socket.c` for a connected UDP socket: lwIP calls `socket_udp_recv` for each
packet and one thread calls `_read`. The two meet in the queue `rx_mqd`, whose
calls run statement by statement. -/
namespace PosixRtos.Net

open PosixRtos.Kernel PosixRtos.Library.ByteMemory PosixRtos.Library.Runs PosixRtos.Mqueue

/-- `mq_maxmsg` and `mq_msgsize` as `socket` sets them. -/
def socketMaxmsg : Nat := 16

def socketMsgsize : Nat := 4

def O_RDWR : BitVec 32 := 1 <<< 2

/-- A packet as lwIP passes it: a chain that the callback owns. `tot_len` is a
`u16_t`. -/
structure Packet where
  chain : Chain
  nonempty : chain ≠ []
  addressed : chain.Addressed
  distinct : chain.addresses.Nodup
  short : chain.bytes.length < 2 ^ 16

def Packet.address (packet : Packet) : Nat := packet.chain.address

def Packet.addresses (packet : Packet) : List Nat := packet.chain.addresses

def Packet.bytes (packet : Packet) : List Byte := packet.chain.bytes

/-- What `socket_udp_recv` sends for a pbuf: the byte `ret`. -/
def socketUdpRecv (pbuf : Nat) : Option Message := if pbuf ≠ 0 then some [0] else none

/-- The local `data` after `mq_receive` has copied a message over its first bytes. -/
def receiveInto (data : BitVec 32) (msg : Message) : Nat :=
  load32 (write (store32 (fun _ => 0) 0 data.toNat) 0 msg) 0

inductive ReadResult where
  | returned (size : Int) (bytes : List Byte)
  | unset
  | fault
deriving DecidableEq

/-- A call of `_read` that has ended, with the value of `data` in it. -/
structure ReadOutcome where
  count : Nat
  data : Nat
  result : ReadResult
deriving DecidableEq

inductive SelectResult where
  | error
  | ready (readfds : Nat)
deriving DecidableEq

/-- The part of `select` after `mq_receive`. -/
def selectAnswer (data : Nat) : SelectResult := if data = 0 then .error else .ready data

/-- The reading thread. `data` is a local that is not initialised; the message is
`none` if `mq_receive` returns a value that it has not set. -/
inductive Reader where
  | idle
  | receiving (count : Nat) (buf : Memory) (data : BitVec 32)
  | answered (count : Nat) (buf : Memory) (data : BitVec 32) (msg : Option Message)

/-- `released` are the arguments of `pbuf_free` other than NULL. -/
structure UdpSocket where
  rx : Parties
  pbufs : Pbufs
  packets : List Packet
  reader : Reader
  outcomes : List ReadOutcome
  released : List Nat

/-- The packets that no `_read` has returned yet. -/
def UdpSocket.outstanding (s : UdpSocket) : List Packet := s.packets.drop s.outcomes.length

def UdpSocket.finish (s : UdpSocket) (count data : Nat) (result : ReadResult) : UdpSocket :=
  { s with reader := .idle, outcomes := s.outcomes ++ [⟨count, data, result⟩] }

/-- The part of `_read` after `mq_receive`. -/
def UdpSocket.readAnswer (s : UdpSocket) (count : Nat) (buf : Memory) (data : BitVec 32) :
    Option Message → UdpSocket
  | none => s.finish count data.toNat .unset
  | some msg =>
      let data := receiveInto data msg
      if msg.length = 0 then s.finish count data (.returned (-1) [])
      else
        match ippkgUnpack s.pbufs data buf count with
        | none => s.finish count data .fault
        | some (buf, size) =>
            match pbufFree s.pbufs data with
            | none => s.finish count data .fault
            | some pbufs =>
                { s with
                  pbufs := pbufs
                  released := s.released ++ (if data = 0 then [] else [data]) }.finish
                  count data (.returned size (read buf 0 size))

inductive SocketAct where
  | arrive (packet : Packet)
  | sender
  | read (count : Nat) (buf : Memory) (data : BitVec 32)
  | receiver
  | finish

/-- lwIP delivers the next packet when its thread is not in `socket_udp_recv`, in
pbufs that were free, and at most sixteen packets are outstanding. -/
def UdpSocket.arrive (s : UdpSocket) (packet : Packet) : Option UdpSocket :=
  if s.outstanding.length < socketMaxmsg ∧ s.rx.sender = .idle ∧
      packet.addresses.all fun a => (s.pbufs a).isNone then
    let s := { s with
      pbufs := placeChain s.pbufs packet.chain
      packets := s.packets ++ [packet] }
    match socketUdpRecv packet.address with
    | none => some s
    | some msg => do
        let rx ← partyStep s.rx (.send msg)
        some { s with rx := rx }
  else none

def socketStep (s : UdpSocket) : SocketAct → Option UdpSocket
  | .arrive packet => s.arrive packet
  | .sender => do
      let rx ← partyStep s.rx .sender
      some { s with rx := rx }
  | .read count buf data =>
      match s.reader with
      | .idle => do
          let rx ← partyStep s.rx .receive
          some { s with rx := rx, reader := .receiving count buf data }
      | _ => none
  | .receiver =>
      match s.reader with
      | .receiving count buf data => do
          let rx ← partyStep s.rx .receiver
          if rx.receiver = .idle then
            let msg := (rx.received.drop s.rx.received.length).head?
            some { s with rx := rx, reader := .answered count buf data msg }
          else some { s with rx := rx }
      | _ => none
  | .finish =>
      match s.reader with
      | .answered count buf data msg => some (s.readAnswer count buf data msg)
      | _ => none

/-- A socket that `socket` and `connect` have just set up. Its queue blocks: it is
opened with `O_CREAT | O_RDWR`. -/
structure UdpSocket.Connected (s : UdpSocket) : Prop where
  queue : ∃ attr : MqAttr, attr.mqMaxmsg = socketMaxmsg ∧ attr.mqMsgsize = socketMsgsize ∧
    s.rx.Initial attr
  blocking : s.rx.mq.blocking = true
  reader : s.reader = .idle
  packets : s.packets = []
  outcomes : s.outcomes = []
  released : s.released = []

/-- The `k`-th `_read` has the first bytes of the `k`-th packet and has released it;
`select` would have found the same pointer. -/
structure UdpSocket.ReadsInOrder (s : UdpSocket) : Prop where
  reads : ∀ (k : Nat) (outcome : ReadOutcome), s.outcomes[k]? = some outcome →
    ∃ packet : Packet, s.packets[k]? = some packet ∧ outcome.data = packet.address ∧
      selectAnswer outcome.data = .ready packet.address ∧
      outcome.result = .returned (min outcome.count packet.bytes.length : Nat)
        (packet.bytes.take outcome.count)
  releases : s.released = (s.packets.take s.outcomes.length).map Packet.address

/-- The address of the packet that is to be read ends in a zero byte, and the
three other bytes are what was left in `data`. -/
def Reader.Decodes : Reader → Option Packet → Prop
  | .answered _ _ data _, some packet =>
      packet.address % 256 = 0 ∧ data.toNat / 256 = packet.address / 256
  | _, _ => True

instance : ∀ (reader : Reader) (packet : Option Packet), Decidable (reader.Decodes packet)
  | .answered _ _ _ _, some _ => inferInstanceAs (Decidable (_ ∧ _))
  | .answered _ _ _ _, none | .idle, _ | .receiving _ _ _, _ => .isTrue trivial

/-- Updates of `mq_curmsgs` do not overlap, and `data` happens to hold what the
message does not. -/
def Lucky (s : UdpSocket) : SocketAct → Prop
  | .sender => Alternates s.rx .sender
  | .receiver => Alternates s.rx .receiver
  | .finish => s.reader.Decodes s.packets[s.outcomes.length]?
  | _ => True

instance (s : UdpSocket) : ∀ act, Decidable (Lucky s act)
  | .sender => inferInstanceAs (Decidable (Alternates s.rx .sender))
  | .receiver => inferInstanceAs (Decidable (Alternates s.rx .receiver))
  | .finish => inferInstanceAs (Decidable (Reader.Decodes _ _))
  | .arrive _ | .read .. => .isTrue trivial

/-! What holds between any two steps. -/

variable {s t : UdpSocket} {base : Nat}

/-- How far the reading thread and its `mq_receive` are. -/
def Reader.Agrees (receiver : RecvPc) (received outcomes : Nat) : Reader → Prop
  | .idle => receiver = .idle ∧ received = outcomes
  | .receiving _ _ _ => receiver ≠ .idle ∧ received = outcomes
  | .answered _ _ _ msg => receiver = .idle ∧ received = outcomes + 1 ∧ msg = some [0]

/-- Whether a packet is being sent. -/
def sending (pc : SendPc) : Nat := pc.message.toList.length

structure Serving (base : Nat) (s : UdpSocket) : Prop where
  queue : ∃ q, Ordered base socketMsgsize socketMaxmsg s.rx q
  sent : ∀ msg ∈ s.rx.sent, msg = [0]
  message : ∀ msg, s.rx.sender.message = some msg → msg = [0]
  packets : s.packets.length = s.rx.sent.length + sending s.rx.sender
  bounded : s.packets.length ≤ s.outcomes.length + socketMaxmsg
  reader : s.reader.Agrees s.rx.receiver s.rx.received.length s.outcomes.length
  apart : (s.outstanding.flatMap Packet.addresses).Nodup
  chained : ∀ packet ∈ s.outstanding, Chained s.pbufs packet.chain
  inOrder : s.ReadsInOrder

theorem Reader.Agrees.outcomes_le {reader : Reader} {receiver : RecvPc} {received outcomes : Nat}
    (h : reader.Agrees receiver received outcomes) : outcomes ≤ received := by
  cases reader with
  | idle => exact h.2.ge
  | receiving => exact h.2.ge
  | answered => exact h.2.1 ▸ Nat.le_succ outcomes

/-- There is room for the message that is being sent. -/
theorem Serving.room {msg : Message} (hs : Serving base s)
    (hmsg : s.rx.sender.message = some msg) :
    s.rx.sent.length < s.rx.received.length + socketMaxmsg := by
  have hpackets := hs.packets
  rw [sending, hmsg, Option.toList_some, List.length_singleton] at hpackets
  have hbounded := hs.bounded
  have hle := hs.reader.outcomes_le
  omega

theorem Packet.address_mem (packet : Packet) : packet.address ∈ packet.addresses := by
  obtain ⟨chain, hne, -⟩ := packet
  cases chain with
  | nil => exact absurd rfl hne
  | cons head rest => exact List.mem_cons_self

theorem Packet.address_ne_zero (packet : Packet) : packet.address ≠ 0 :=
  (packet.addressed _ packet.address_mem).1.ne'

theorem Serving.received_le (hs : Serving base s) : s.rx.received.length ≤ s.packets.length := by
  obtain ⟨q, hq⟩ := hs.queue
  have hunits := hq.units
  have hpackets := hs.packets
  omega

theorem Serving.outcomes_le (hs : Serving base s) : s.outcomes.length ≤ s.packets.length :=
  hs.reader.outcomes_le.trans hs.received_le

/-- More packets do not change what has been read. -/
theorem UdpSocket.ReadsInOrder.arrive (h : s.ReadsInOrder)
    (hle : s.outcomes.length ≤ s.packets.length) (packet : Packet) (rx : Parties) (pbufs : Pbufs) :
    ({ s with rx := rx, pbufs := pbufs, packets := s.packets ++ [packet] } :
      UdpSocket).ReadsInOrder where
  reads k outcome hk := by
    obtain ⟨read, hread, hrest⟩ := h.reads k outcome hk
    refine ⟨read, ?_, hrest⟩
    obtain ⟨hlt, -⟩ := List.getElem?_eq_some_iff.mp hread
    rw [List.getElem?_append_left hlt, hread]
  releases := by
    rw [List.take_append_of_le_length hle]
    exact h.releases

/-- A new packet is in pbufs of its own. -/
theorem Serving.arrive {packet : Packet} (hs : Serving base s)
    (hstep : s.arrive packet = some t) : Serving base t := by
  unfold UdpSocket.arrive at hstep
  split at hstep
  case isFalse => cases hstep
  case isTrue hguard =>
    obtain ⟨hroom, hidle, hfree⟩ := hguard
    have hsend : socketUdpRecv packet.address = some [0] := if_pos packet.address_ne_zero
    have hparty : partyStep s.rx (.send [0]) = some { s.rx with sender := .checkFull [0] } :=
      if_pos hidle
    simp only [hsend, hparty, Option.bind_eq_bind, Option.bind_some] at hstep
    cases hstep
    obtain ⟨q, hq⟩ := hs.queue
    have hpackets := hs.packets
    have hle := hs.outcomes_le
    rw [UdpSocket.outstanding, List.length_drop] at hroom
    rw [hidle] at hpackets
    have houtstanding : (s.packets ++ [packet]).drop s.outcomes.length =
        s.outstanding ++ [packet] := by
      rw [List.drop_append_of_le_length hle]
      rfl
    have hnew : ∀ a ∈ packet.addresses, s.pbufs a = none := by
      intro a ha
      exact Option.isNone_iff_eq_none.mp (List.all_eq_true.mp hfree a ha)
    have hapart : ∀ other ∈ s.outstanding, ∀ a ∈ other.addresses, a ∉ packet.addresses :=
      fun other hother a ha hmem => (hs.chained other hother).live ha (hnew a hmem)
    refine ⟨⟨q, hq.beginSend hidle [0]⟩, hs.sent, ?_, ?_, ?_, hs.reader, ?_, ?_, ?_⟩
    · rintro _ ⟨⟩
      rfl
    · rw [List.length_append, hpackets]
      rfl
    · simp only [List.length_append, List.length_singleton]
      omega
    · rw [UdpSocket.outstanding, houtstanding, List.flatMap_append, List.flatMap_singleton]
      refine List.Nodup.append hs.apart packet.distinct ?_
      intro a ha
      obtain ⟨other, hother, ha⟩ := List.mem_flatMap.mp ha
      exact hapart other hother a ha
    · rw [UdpSocket.outstanding, houtstanding]
      intro other hother
      rcases List.mem_append.mp hother with hold | hlast
      · exact (hs.chained other hold).congr fun a ha =>
          placeChain_outside (hapart other hold a ha)
      · rw [List.mem_singleton.mp hlast]
        exact placeChain_chained packet.distinct
    · exact hs.inOrder.arrive hle packet _ _

theorem senderStep_message {s t : Parties} (hstep : senderStep s = some t) :
    ∃ msg, s.sender.message = some msg := by
  unfold senderStep at hstep
  cases hpc : s.sender <;> rw [hpc] at hstep <;> first | exact ⟨_, rfl⟩ | cases hstep

theorem Serving.sender (hs : Serving base s) (hok : Alternates s.rx .sender)
    (hstep : socketStep s .sender = some t) : Serving base t := by
  obtain ⟨rx, hrx, ht⟩ := Option.bind_eq_some_iff.mp hstep
  cases ht
  obtain ⟨q, hq⟩ := hs.queue
  obtain ⟨msg, hmsg⟩ := senderStep_message hrx
  have hfits : ∀ msg, s.rx.sender.message = some msg → msg.length ≤ socketMsgsize := by
    intro msg hmsg
    rw [hs.message msg hmsg]
    decide
  obtain ⟨hq', hsends⟩ := senderStep_ordered hq (hs.room hmsg) hfits hok hrx
  have hpackets := hs.packets
  have hreader := hs.reader
  rw [← hsends.receiver, ← hsends.received] at hreader
  have hinOrder : ({ s with rx := rx } : UdpSocket).ReadsInOrder :=
    ⟨hs.inOrder.reads, hs.inOrder.releases⟩
  rcases hsends.sent with ⟨hmessage, hsent⟩ | ⟨msg', hmsg', hidle, hsent⟩
  · refine ⟨hq', ?_, ?_, ?_, hs.bounded, hreader, hs.apart, hs.chained, hinOrder⟩
    · rw [hsent]
      exact hs.sent
    · rw [hmessage]
      exact hs.message
    · rw [hsent, sending, hmessage]
      exact hpackets
  · refine ⟨hq', ?_, ?_, ?_, hs.bounded, hreader, hs.apart, hs.chained, hinOrder⟩
    · intro other hother
      rw [hsent] at hother
      rcases List.mem_append.mp hother with hold | hlast
      · exact hs.sent other hold
      · rw [List.mem_singleton.mp hlast]
        exact hs.message msg' hmsg'
    · rw [hidle]
      exact nofun
    · rw [sending, hmsg'] at hpackets
      rw [hsent, hidle, List.length_append]
      exact hpackets

theorem Serving.read {count : Nat} {buf : Memory} {data : BitVec 32} (hs : Serving base s)
    (hstep : socketStep s (.read count buf data) = some t) : Serving base t := by
  simp only [socketStep] at hstep
  have hreader := hs.reader
  cases hr : s.reader <;> rw [hr] at hstep hreader
  case receiving => cases hstep
  case answered => cases hstep
  case idle =>
    obtain ⟨q, hq⟩ := hs.queue
    have hparty : partyStep s.rx .receive = some { s.rx with receiver := .semWait } := by
      simp only [partyStep, hreader.1, if_true, hq.blocking]
    simp only [hparty, Option.bind_eq_bind, Option.bind_some] at hstep
    cases hstep
    have hwaiting : RecvPc.semWait ≠ .idle := by simp
    exact ⟨⟨q, hq.beginReceive hreader.1⟩, hs.sent, hs.message, hs.packets, hs.bounded,
      ⟨hwaiting, hreader.2⟩, hs.apart, hs.chained, ⟨hs.inOrder.reads, hs.inOrder.releases⟩⟩

/-- Every message of the queue is the one that `socket_udp_recv` sends. -/
theorem Serving.first {q : List Message} {msg : Message} (hs : Serving base s)
    (hq : Ordered base socketMsgsize socketMaxmsg s.rx q) (hfirst : q.head? = some msg) :
    msg = [0] := by
  obtain ⟨rest, rfl⟩ := List.head?_eq_some_iff.mp hfirst
  have hmem : msg ∈ s.rx.sent ++ s.rx.sender.posting := by
    rw [← hq.order]
    exact List.mem_append_right _ List.mem_cons_self
  rcases List.mem_append.mp hmem with hsent | hposting
  · exact hs.sent msg hsent
  · apply hs.message
    cases hpc : s.rx.sender <;> rw [hpc] at hposting
    case post posted => rw [List.mem_singleton.mp hposting]; rfl
    all_goals cases hposting

theorem Serving.receiver (hs : Serving base s) (hok : Alternates s.rx .receiver)
    (hstep : socketStep s .receiver = some t) : Serving base t := by
  simp only [socketStep] at hstep
  have hreader := hs.reader
  cases hr : s.reader <;> rw [hr] at hstep hreader
  case idle => cases hstep
  case answered => cases hstep
  case receiving count buf data =>
    obtain ⟨rx, hrx, ht⟩ := Option.bind_eq_some_iff.mp hstep
    obtain ⟨q, hq⟩ := hs.queue
    obtain ⟨hq', hreceives⟩ := receiverStep_ordered hq hok hrx
    have hsent := hs.sent
    have hmessage := hs.message
    have hpackets := hs.packets
    rw [← hreceives.sent] at hsent hpackets
    rw [← hreceives.sender] at hmessage hpackets
    rcases hreceives.received with ⟨hbusy, hreceived⟩ | ⟨msg, hfirst, hidle, hreceived⟩
    · rw [if_neg hbusy] at ht
      cases ht
      refine ⟨hq', hsent, hmessage, hpackets, hs.bounded, ?_, hs.apart, hs.chained,
        ⟨hs.inOrder.reads, hs.inOrder.releases⟩⟩
      exact ⟨hbusy, hreceived ▸ hreader.2⟩
    · rw [if_pos hidle, hreceived, List.drop_left, hs.first hq hfirst] at ht
      cases ht
      refine ⟨hq', hsent, hmessage, hpackets, hs.bounded, ⟨hidle, ?_, rfl⟩, hs.apart, hs.chained,
        ⟨hs.inOrder.reads, hs.inOrder.releases⟩⟩
      rw [hreceived, List.length_append, hreader.2]
      rfl

/-- The byte clears the lowest byte of `data` and leaves the others as they were. -/
theorem receiveInto_zero (data : BitVec 32) : receiveInto data [0] = data.toNat / 256 * 256 := by
  have hlt := data.isLt
  simp only [receiveInto, load32, write, store32, wordBytes]
  simp
  omega

theorem Serving.next {count : Nat} {buf : Memory} {data : BitVec 32} {msg : Option Message}
    (hs : Serving base s) (hr : s.reader = .answered count buf data msg) :
    ∃ packet, s.packets[s.outcomes.length]? = some packet ∧
      s.outstanding = packet :: s.packets.drop (s.outcomes.length + 1) := by
  have hreader := hs.reader
  rw [hr] at hreader
  have hle := hs.received_le
  have hlt : s.outcomes.length < s.packets.length := by
    have := hreader.2.1
    omega
  exact ⟨s.packets[s.outcomes.length], List.getElem?_eq_getElem hlt, List.drop_eq_getElem_cons hlt⟩

/-- `_read` of a packet whose pointer it has decoded. -/
theorem readAnswer_eq {packet : Packet} {data : BitVec 32} (count : Nat) (buf : Memory)
    (hdata : receiveInto data [0] = packet.address) (hchained : Chained s.pbufs packet.chain) :
    ∃ pbufs, (∀ a ∉ packet.addresses, pbufs a = s.pbufs a) ∧
      s.readAnswer count buf data (some [0]) =
        { s with pbufs := pbufs, released := s.released ++ [packet.address] }.finish count
          packet.address (.returned (min count packet.bytes.length : Nat)
            (packet.bytes.take count)) := by
  obtain ⟨pbufs, hfree, -, hsame⟩ := pbufFree_chain hchained packet.addressed packet.distinct
  have hunpack := ippkgUnpack_chain hchained packet.addressed packet.distinct packet.short buf count
  have hread : read (write buf 0 (packet.bytes.take count)) 0 (min count packet.bytes.length) =
      packet.bytes.take count := by
    rw [← List.length_take]
    exact read_write ..
  refine ⟨pbufs, hsame, ?_⟩
  unfold UdpSocket.readAnswer
  rw [show packet.chain.address = packet.address from rfl] at hfree hunpack
  simp only [hdata, hunpack, hfree, List.length_singleton, one_ne_zero, if_false,
    if_neg packet.address_ne_zero]
  rw [show packet.chain.bytes = packet.bytes from rfl, hread]

theorem UdpSocket.ReadsInOrder.finish {packet : Packet} (h : s.ReadsInOrder)
    (hpacket : s.packets[s.outcomes.length]? = some packet) (count : Nat) (pbufs : Pbufs) :
    ({ s with pbufs := pbufs, released := s.released ++ [packet.address] }.finish count
      packet.address (.returned (min count packet.bytes.length : Nat)
        (packet.bytes.take count))).ReadsInOrder where
  reads k outcome hk := by
    rcases Nat.lt_trichotomy k s.outcomes.length with hlt | rfl | hgt
    · rw [UdpSocket.finish, List.getElem?_append_left hlt] at hk
      exact h.reads k outcome hk
    · rw [UdpSocket.finish, List.getElem?_concat_length] at hk
      cases hk
      exact ⟨packet, hpacket, rfl, if_neg packet.address_ne_zero, rfl⟩
    · rw [UdpSocket.finish, List.getElem?_eq_none (by simp; omega)] at hk
      cases hk
  releases := by
    simp only [UdpSocket.finish, List.length_append, List.length_singleton]
    rw [List.take_add_one, hpacket, h.releases]
    simp

theorem Serving.finish (hs : Serving base s)
    (hok : s.reader.Decodes s.packets[s.outcomes.length]?)
    (hstep : socketStep s .finish = some t) : Serving base t := by
  simp only [socketStep] at hstep
  have hreader := hs.reader
  cases hr : s.reader <;> rw [hr] at hstep hreader hok
  case idle => cases hstep
  case receiving => cases hstep
  case answered count buf data msg =>
    obtain ⟨hidle, hreceived, rfl⟩ := hreader
    obtain ⟨packet, hpacket, houtstanding⟩ := hs.next hr
    rw [hpacket] at hok
    obtain ⟨hlow, hhigh⟩ := hok
    have hdata : receiveInto data [0] = packet.address := by
      rw [receiveInto_zero, hhigh]
      omega
    have hapart := hs.apart
    have hchained := hs.chained
    rw [houtstanding] at hapart hchained
    obtain ⟨pbufs, hsame, hread⟩ :=
      readAnswer_eq count buf hdata (hchained packet List.mem_cons_self)
    dsimp only at hstep
    rw [hread] at hstep
    cases hstep
    rw [List.flatMap_cons] at hapart
    obtain ⟨-, hrest, hdisjoint⟩ := List.nodup_append.mp hapart
    have hbounded := hs.bounded
    have hdropped (outcome : ReadOutcome) : (s.outcomes ++ [outcome]).length =
        s.outcomes.length + 1 := List.length_append
    refine ⟨hs.queue, hs.sent, hs.message, hs.packets, ?_, ⟨hidle, ?_⟩, ?_, ?_,
      hs.inOrder.finish hpacket count pbufs⟩
    · exact hbounded.trans (Nat.add_le_add_right (by rw [UdpSocket.finish, hdropped]; omega) _)
    · exact hreceived.trans (hdropped _).symm
    · rw [UdpSocket.outstanding, UdpSocket.finish, hdropped]
      exact hrest
    · rw [UdpSocket.outstanding, UdpSocket.finish, hdropped]
      intro other hother
      refine (hchained other (List.mem_cons_of_mem packet hother)).congr fun a ha => hsame a ?_
      intro hmem
      exact hdisjoint a hmem a (List.mem_flatMap.mpr ⟨other, hother, ha⟩) rfl

theorem socketStep_serving {act : SocketAct} (hs : Serving base s) (hok : Lucky s act)
    (hstep : socketStep s act = some t) : Serving base t := by
  cases act with
  | arrive packet => exact hs.arrive hstep
  | sender => exact hs.sender hok hstep
  | read count buf data => exact hs.read hstep
  | receiver => exact hs.receiver hok hstep
  | finish => exact hs.finish hok hstep

theorem UdpSocket.Connected.serving (h : s.Connected) : Serving s.rx.mq.mqPbuf s := by
  obtain ⟨attr, hmaxmsg, hmsgsize, hinitial⟩ := h.queue
  have hordered := hinitial.ordered h.blocking (by rw [hmaxmsg]; decide) (by rw [hmaxmsg]; decide)
    (by rw [hmsgsize]; decide) (by rw [hmsgsize]; decide)
  rw [hmaxmsg, hmsgsize] at hordered
  refine ⟨⟨[], hordered⟩, ?_, ?_, ?_, ?_, ?_, ?_, ?_, ?_, ?_⟩
  · rw [hinitial.sent]
    exact nofun
  · rw [hinitial.sender]
    exact nofun
  · rw [h.packets, hinitial.sent, hinitial.sender]
    rfl
  · rw [h.packets]
    exact Nat.zero_le _
  · rw [h.reader, hinitial.receiver, hinitial.received, h.outcomes]
    exact ⟨rfl, rfl⟩
  · rw [UdpSocket.outstanding, h.packets, List.drop_nil]
    exact List.nodup_nil
  · rw [UdpSocket.outstanding, h.packets, List.drop_nil]
    exact nofun
  · rw [h.outcomes]
    exact nofun
  · rw [h.released, h.packets, List.take_nil]
    rfl

/-- Whatever arrives, and however the callback and `_read` are interleaved, a run in
which every pointer is decoded by chance reads what arrived. -/
theorem reads_what_arrived {start : UdpSocket} (hstart : start.Connected)
    (hrun : Reaches socketStep Lucky start s) : s.ReadsInOrder :=
  (hrun.invariant _ hstart.serving fun _ _ _ hs hok hstep =>
    socketStep_serving hs hok hstep).inOrder

/-- What `socket` makes of the queue, at some address. -/
def socketQueue : Except Int MqState :=
  mqOpen clearedState (fun _ => 0xff) true (O_CREAT ||| O_RDWR) (O_CREAT ||| O_RDWR)
    ⟨0, socketMaxmsg, socketMsgsize, 0⟩ (some 0x20000010) (some ⟨0, 0, 1⟩)

def udpSocket (o : MqState) : UdpSocket where
  rx := o.parties
  pbufs := fun _ => none
  packets := []
  reader := .idle
  outcomes := []
  released := []

theorem udpSocket_connected {o : MqState} (hopen : socketQueue = .ok o) :
    (udpSocket o).Connected := by
  have hfacts : socketQueue.toOption.map (fun s =>
      (s.mq.mqPbufSize, s.mq.mqPbuf + s.mq.mqPbufSize, s.mq.blocking)) =
        some (192, 0x200000d0, true) := by decide +kernel
  rw [hopen] at hfacts
  obtain ⟨hsize, hrest⟩ := Prod.mk.inj (Option.some.inj hfacts)
  obtain ⟨hend, hblocking⟩ := Prod.mk.inj hrest
  have hopened : Opened _ o := ⟨⟨_, _, _, _, _, _, _, hopen⟩, hend.trans_lt (by decide)⟩
  refine ⟨⟨_, rfl, rfl, hopened.parties ?_⟩, hblocking, rfl, rfl, rfl, rfl⟩
  exact (Nat.zero_lt_succ 191).trans_eq hsize.symm

/-- Four bytes in two pbufs, the first one at an address that ends in a zero byte. -/
def roundPacket : Packet where
  chain := [(0x20001000, [1, 2, 3]), (0x20001040, [4])]
  nonempty := by decide
  addressed := by unfold Chain.Addressed; decide
  distinct := by decide
  short := by decide

/-- The packet arrives and is read into a buffer of `count` bytes. -/
def oneRead (packet : Packet) (count : Nat) (data : BitVec 32) : List SocketAct :=
  SocketAct.arrive packet :: List.replicate 10 SocketAct.sender ++
    SocketAct.read count (fun _ => 0xff) data :: List.replicate 9 SocketAct.receiver ++
    [SocketAct.finish]

theorem roundPacket_reads_what_arrived :
    ∃ o s, socketQueue = .ok o ∧
      runInputs socketStep Lucky (oneRead roundPacket 10 0x200010ff) (udpSocket o) = some s ∧
      s.outcomes = [⟨10, 0x20001000, .returned 4 [1, 2, 3, 4]⟩] ∧ s.ReadsInOrder := by
  have hfacts : (socketQueue.toOption.bind fun o =>
      runInputs socketStep Lucky (oneRead roundPacket 10 0x200010ff) (udpSocket o)).map
        UdpSocket.outcomes = some [⟨10, 0x20001000, .returned 4 [1, 2, 3, 4]⟩] := by
    decide +kernel
  obtain ⟨s, hs, houtcomes⟩ := Option.map_eq_some_iff.mp hfacts
  obtain ⟨o, ho, hrun⟩ := Option.bind_eq_some_iff.mp hs
  have hopen := eq_ok_of_toOption ho
  exact ⟨o, s, hopen, hrun, houtcomes,
    reads_what_arrived (udpSocket_connected hopen) (.of_runInputs hrun)⟩

def plainPacket : Packet where
  chain := [(0x20001004, [1, 2, 3])]
  nonempty := by decide
  addressed := by unfold Chain.Addressed; decide
  distinct := by decide
  short := by decide

/-- `_read` takes the byte for a NULL pointer: it returns nothing of the packet and
does not release it. -/
theorem plainPacket_is_lost :
    ∃ start s, start.Connected ∧ Reaches socketStep anyStep start s ∧
      s.packets.map Packet.bytes = [[1, 2, 3]] ∧ s.outcomes = [⟨10, 0, .returned 0 []⟩] ∧
      s.released = [] ∧ ¬ s.ReadsInOrder := by
  have hfacts : (socketQueue.toOption.bind fun o =>
      runInputs socketStep anyStep (oneRead plainPacket 10 0) (udpSocket o)).map
        (fun s => (s.packets.map Packet.bytes, s.outcomes, s.released)) =
        some ([[1, 2, 3]], [⟨10, 0, .returned 0 []⟩], []) := by
    decide +kernel
  obtain ⟨s, hs, hends⟩ := Option.map_eq_some_iff.mp hfacts
  obtain ⟨o, ho, hrun⟩ := Option.bind_eq_some_iff.mp hs
  have hopen := eq_ok_of_toOption ho
  simp only [Prod.mk.injEq] at hends
  obtain ⟨hpackets, houtcomes, hreleased⟩ := hends
  refine ⟨_, s, udpSocket_connected hopen, .of_runInputs hrun, hpackets, houtcomes, hreleased, ?_⟩
  intro hreads
  obtain ⟨packet, hpacket, -, -, hresult⟩ := hreads.reads 0 _ (by rw [houtcomes]; rfl)
  have hbytes : packet.bytes = [1, 2, 3] := by
    have hmap := congrArg (·[0]?) hpackets
    simpa [hpacket] using hmap
  rw [hbytes] at hresult
  exact absurd hresult (by decide)

end PosixRtos.Net
