import PosixRtos.Mqueue.Interleaved

/-! The messages of an interleaved sender and receiver. On a blocking queue the
slots hold, between any two statements, the messages that are on their way, in the
order of the calls: what is received is what was sent. -/
namespace PosixRtos.Mqueue

open PosixRtos.Kernel PosixRtos.Library.ByteMemory PosixRtos.Library.Runs
  PosixRtos.Library.RingBuffer

/-- How far the pointer of a party is ahead of its messages. -/
def SendPc.ahead : SendPc → Nat
  | .loadCurmsgs _ _ | .storeCurmsgs _ _ _ | .storeUsed _ _ | .post _ => 1
  | _ => 0

def RecvPc.ahead : RecvPc → Nat
  | .loadCurmsgs _ _ | .storeCurmsgs _ _ _ | .storeUsed _ _ => 1
  | _ => 0

/-- The message that is marked in its slot before `mq_send` has returned. -/
def SendPc.posting : SendPc → List Message
  | .post msg => [msg]
  | _ => []

/-- The message whose length is in its slot. -/
def SendPc.measured : SendPc → Option Message
  | .copy msg _ | .advance msg _ | .wrap msg _ | .loadCurmsgs msg _ | .storeCurmsgs msg _ _
  | .storeUsed msg _ => some msg
  | _ => none

/-- The message whose bytes are in its slot. -/
def SendPc.copied : SendPc → Option Message
  | .advance msg _ | .wrap msg _ | .loadCurmsgs msg _ | .storeCurmsgs msg _ _
  | .storeUsed msg _ => some msg
  | _ => none

/-- The message that has been copied to the caller. -/
def RecvPc.copied : RecvPc → Option Message
  | .advance msg _ | .wrap msg _ | .loadCurmsgs msg _ | .storeCurmsgs msg _ _
  | .storeUsed msg _ => some msg
  | _ => none

/-- A unit that `sem_wait` has taken for a message still in its slot. -/
def RecvPc.taken : RecvPc → Nat
  | .idle | .semWait => 0
  | _ => 1

/-- What `mq_send` has done for its message, the one of number `i`. -/
structure SendPc.Fills (base size n i : Nat) (mem : Memory) (mq : Mq) (pc : SendPc) : Prop where
  ptr : mq.sendPtr = slotAddr base size
    (if pc.past = 1 then i % n + 1 else (i + pc.ahead) % n)
  slot : ∀ p, pc.slot = some p → p = slotAddr base size (i % n)
  fits : ∀ msg, pc.measured = some msg → msg.length ≤ size
  measured : ∀ msg, pc.measured = some msg →
    load32 mem (slotAddr base size (i % n)) = msg.length
  copied : ∀ msg, pc.copied = some msg →
    read mem (slotAddr base size (i % n) + sizeofMqMsg) msg.length = msg

/-- What `mq_receive` has done for message number `i`, the first one of the queue `q`. -/
structure RecvPc.Takes (base size n i : Nat) (q : List Message) (mq : Mq) (pc : RecvPc) :
    Prop where
  ptr : mq.recvPtr = slotAddr base size
    (if pc.past = 1 then i % n + 1 else (i + pc.ahead) % n)
  slot : ∀ p, pc.slot = some p → p = slotAddr base size (i % n)
  copied : ∀ msg, pc.copied = some msg → q.head? = some msg

/-- The messages `q` are on their way. -/
structure Ordered (base size n : Nat) (s : Parties) (q : List Message) : Prop where
  consistent : Consistent base size n s
  blocking : s.mq.blocking = true
  maxmsg : s.mq.mqAttr.mqMaxmsg = n
  small : size < 2 ^ 32
  ring : Holds n (s.received.length % n) (slotMessage s.mem base size) q
  sized : Sized s.mem base size n
  order : s.received ++ q = s.sent ++ s.sender.posting
  sender : s.sender.Fills base size n s.sent.length s.mem s.mq
  receiver : s.receiver.Takes base size n s.received.length q s.mq
  ceiling : s.sem.initValue = n ∧ n ≤ semValueMax
  units : s.sem.value + s.receiver.taken + s.received.length = s.sent.length

/-- The message of the call in progress. -/
def SendPc.message : SendPc → Option Message
  | .idle => none
  | .checkFull msg | .checkUsed msg | .storeSize msg _ | .copy msg _ | .advance msg _
  | .wrap msg _ | .loadCurmsgs msg _ | .storeCurmsgs msg _ _ | .storeUsed msg _
  | .post msg => some msg

variable {base size n i : Nat} {mem mem' : Memory} {mq : Mq} {s t : Parties} {q : List Message}
  {msg : Message}

/-! Stores into a slot. -/

theorem write_sameOutside {a : Nat} {bs : List Byte} (hlow : slotAddr base size i ≤ a)
    (hhigh : a + bs.length ≤ slotAddr base size i + (sizeofMqMsg + size)) :
    SameOutside mem (write mem a bs) base size i := by
  intro x hx
  apply write_outside
  omega

/-- What is stored into a slot that is not marked is not seen. -/
theorem slotMessage_hidden (h : SameOutside mem mem' base size i)
    (hflags : flags mem' base size = flags mem base size) (hfree : flags mem base size i = 0)
    (hsized : Sized mem base size n) :
    (∀ j < n, slotMessage mem' base size j = slotMessage mem base size j) ∧
      Sized mem' base size n := by
  have hfree' : load32 mem' (slotAddr base size i + 4) = 0 := (congrFun hflags i).trans hfree
  have hnone : slotMessage mem base size i = none := if_pos hfree
  have hnone' : slotMessage mem' base size i = none := if_pos hfree'
  constructor
  · intro j hj
    rw [h.update hsized hnone' j hj]
    by_cases hji : j = i
    · rw [hji, Function.update_self, hnone]
    · rw [Function.update_of_ne hji]
  · exact h.sized hsized fun hused => absurd hfree' hused

theorem Ordered.length (hs : Ordered base size n s q) :
    s.received.length + q.length = s.sent.length + s.sender.posting.length := by
  have horder := congrArg List.length hs.order
  simpa only [List.length_append] using horder

/-- The slot that `mq_send` fills is the one behind the queue. -/
theorem Ordered.behind (hs : Ordered base size n s q) (hpost : s.sender.posting = []) :
    (s.received.length % n + q.length) % n = s.sent.length % n := by
  have hlength := hs.length
  rw [hpost, List.length_nil, Nat.add_zero] at hlength
  rw [Nat.mod_add_mod, hlength]

theorem Ordered.slot_free (hs : Ordered base size n s q) {p : Nat} (hp : s.sender.slot = some p) :
    p = slotAddr base size (s.sent.length % n) ∧
      flags s.mem base size (s.sent.length % n) = 0 := by
  have hslot := hs.sender.slot p hp
  obtain ⟨j, -, hpj, hfree⟩ := hs.consistent.sender.slot p hp
  refine ⟨hslot, ?_⟩
  unfold flags at hfree ⊢
  rw [← hslot, hpj, hfree]

theorem Ordered.slot_used (hs : Ordered base size n s q) {p : Nat}
    (hp : s.receiver.slot = some p) :
    p = slotAddr base size (s.received.length % n) ∧
      flags s.mem base size (s.received.length % n) = 1 := by
  have hslot := hs.receiver.slot p hp
  obtain ⟨j, -, hpj, hused⟩ := hs.consistent.receiver.slot p hp
  refine ⟨hslot, ?_⟩
  unfold flags at hused ⊢
  rw [← hslot, hpj, hused]

/-- With a unit taken from the semaphore there is a message. -/
theorem Ordered.nonempty (hs : Ordered base size n s q) (htaken : s.receiver.taken = 1) :
    q ≠ [] := by
  have hlength := hs.length
  have hunits := hs.units
  rintro rfl
  rw [List.length_nil] at hlength
  omega

/-- The checks of `mq_send` pass as long as there is room. -/
theorem Ordered.notFull (hs : Ordered base size n s q)
    (hroom : s.sent.length < s.received.length + n) (hcounted : s.sender.counted = 0) :
    s.mq.mqAttr.mqCurmsgs < s.mq.mqAttr.mqMaxmsg := by
  have hcount := hs.consistent.counted
  rw [hs.maxmsg]
  omega

theorem Ordered.free (hs : Ordered base size n s q)
    (hroom : s.sent.length < s.received.length + n) (hpost : s.sender.posting = []) :
    load32 s.mem (slotAddr base size (s.sent.length % n) + 4) = 0 := by
  have hlength := hs.length
  rw [hpost, List.length_nil, Nat.add_zero] at hlength
  have hbehind := hs.ring.behind (by omega)
  rw [hs.behind hpost] at hbehind
  by_contra hused
  rw [slotMessage, if_neg hused] at hbehind
  cases hbehind

/-- The checks of `mq_receive` pass once it has a unit. -/
theorem Ordered.notEmpty (hs : Ordered base size n s q) (htaken : s.receiver.taken = 1)
    (hdiscounted : s.receiver.discounted = 0) : s.mq.mqAttr.mqCurmsgs ≠ 0 := by
  have hcount := hs.consistent.counted
  have hunits := hs.units
  omega

theorem Ordered.first (hs : Ordered base size n s q) (hq : q.head? = some msg) :
    load32 s.mem (slotAddr base size (s.received.length % n) + 4) ≠ 0 ∧
      read s.mem (slotAddr base size (s.received.length % n) + sizeofMqMsg)
        (load32 s.mem (slotAddr base size (s.received.length % n))) = msg := by
  have hfirst := hs.ring.first
  rw [hq, slotMessage] at hfirst
  have hused : load32 s.mem (slotAddr base size (s.received.length % n) + 4) ≠ 0 := by
    intro hzero
    rw [if_pos hzero] at hfirst
    cases hfirst
  rw [if_neg hused] at hfirst
  exact ⟨hused, Option.some.inj hfirst⟩

/-! One statement of `mq_send`. -/

/-- A step of the sender either goes on with its message or ends the call with
the message sent. -/
structure Sends (s t : Parties) : Prop where
  received : t.received = s.received
  receiver : t.receiver = s.receiver
  sent : (t.sender.message = s.sender.message ∧ t.sent = s.sent) ∨
    ∃ msg, s.sender.message = some msg ∧ t.sender = .idle ∧ t.sent = s.sent ++ [msg]

theorem Sends.of_message {msg : Message} (hreceived : t.received = s.received)
    (hreceiver : t.receiver = s.receiver) (hs : s.sender.message = some msg)
    (ht : t.sender.message = some msg) (hsent : t.sent = s.sent) : Sends s t :=
  ⟨hreceived, hreceiver, .inl ⟨ht.trans hs.symm, hsent⟩⟩

/-- The slots and the queue after a store that is not seen. -/
theorem Ordered.hidden (hs : Ordered base size n s q) {mem' : Memory} {pc : SendPc}
    (ht : Consistent base size n { s with mem := mem', sender := pc })
    (hsame : SameOutside s.mem mem' base size (s.sent.length % n))
    (hflags : flags mem' base size = flags s.mem base size)
    (hfree : flags s.mem base size (s.sent.length % n) = 0)
    (hpost : s.sender.posting = []) (hpost' : pc.posting = [])
    (hsender : pc.Fills base size n s.sent.length mem' s.mq) :
    Ordered base size n { s with mem := mem', sender := pc } q := by
  obtain ⟨hmessages, hsized⟩ := slotMessage_hidden hsame hflags hfree hs.sized
  exact { hs with
    consistent := ht
    ring := hs.ring.congr hmessages
    sized := hsized
    order := by
      have horder := hs.order
      rw [hpost] at horder
      rw [hpost']
      exact horder
    sender := hsender
    receiver := hs.receiver }

theorem slotMessage_marked (hmeasured : load32 mem (slotAddr base size i) = msg.length)
    (hcopied : read mem (slotAddr base size i + sizeofMqMsg) msg.length = msg) :
    slotMessage (store32 mem (slotAddr base size i + 4) 1) base size i = some msg := by
  have hused : load32 (store32 mem (slotAddr base size i + 4) 1) (slotAddr base size i + 4) = 1 :=
    load32_store32 (by decide)
  have hsize : load32 (store32 mem (slotAddr base size i + 4) 1) (slotAddr base size i) =
      msg.length := by
    unfold store32
    rw [load32_write_apart (by omega), hmeasured]
  unfold slotMessage
  dsimp only
  rw [hused, if_neg one_ne_zero, hsize]
  unfold store32
  rw [read_write_apart (by rw [length_wordBytes]; unfold sizeofMqMsg; omega), hcopied]

/-- `mq_msg->used = 1` puts the message at the end of the queue. -/
theorem Ordered.push (hs : Ordered base size n s q) {mqMsg : Nat}
    (hroom : s.sent.length < s.received.length + n) (hpc : s.sender = .storeUsed msg mqMsg)
    (ht : Consistent base size n
      { s with mem := store32 s.mem (mqMsg + 4) 1, sender := .post msg }) :
    Ordered base size n { s with mem := store32 s.mem (mqMsg + 4) 1, sender := .post msg }
      (q ++ [msg]) := by
  have hpost : s.sender.posting = [] := by rw [hpc]; rfl
  have hsender := hs.sender
  rw [hpc] at hsender
  have hslot := hsender.slot mqMsg rfl
  have hmeasured := hsender.measured msg rfl
  have hfits := hsender.fits msg rfl
  subst hslot
  have hmessage := slotMessage_marked hmeasured (hsender.copied msg rfl)
  have hsame : SameOutside s.mem
      (store32 s.mem (slotAddr base size (s.sent.length % n) + 4) 1) base size
      (s.sent.length % n) :=
    write_sameOutside (by omega) (by rw [length_wordBytes]; unfold sizeofMqMsg; omega)
  have hlength := hs.length
  have horder := hs.order
  rw [hpost] at horder hlength
  rw [List.length_nil, Nat.add_zero] at hlength
  rw [List.append_nil] at horder
  refine { hs with
    consistent := ht
    ring := ?_
    sized := ?_
    order := ?_
    sender := ⟨hsender.ptr, nofun, nofun, nofun, nofun⟩
    receiver := { hs.receiver with copied := ?_ } }
  · have hpush := hs.ring.push (x := msg) (by omega)
    rw [hs.behind hpost] at hpush
    exact hpush.congr (hsame.update hs.sized hmessage)
  · refine hsame.sized hs.sized fun _ => ?_
    unfold store32
    rw [load32_write_apart (by omega), hmeasured]
    exact hfits
  · dsimp only [SendPc.posting]
    rw [← List.append_assoc, horder]
  · intro first hfirst
    rw [List.head?_append, hs.receiver.copied first hfirst]
    rfl

theorem senderStep_ordered (hs : Ordered base size n s q)
    (hroom : s.sent.length < s.received.length + n)
    (hfits : ∀ msg, s.sender.message = some msg → msg.length ≤ size)
    (hok : Alternates s .sender) (hstep : senderStep s = some t) :
    (∃ q', Ordered base size n t q') ∧ Sends s t := by
  have ht := senderStep_consistent hs.consistent hok hstep
  obtain ⟨mem, mq, sem, sender, receiver, sent, received⟩ := s
  unfold senderStep at hstep
  cases sender with
  | idle => cases hstep
  | checkFull msg =>
    dsimp only at hstep
    have hlen := hfits msg rfl
    rw [← hs.consistent.layout.msgsize] at hlen
    rw [if_neg (hs.notFull hroom rfl).not_ge, if_neg hlen.not_gt] at hstep
    cases hstep
    exact ⟨⟨q, { hs with consistent := ht, sender := { hs.sender with } }⟩,
      .of_message rfl rfl rfl rfl rfl⟩
  | checkUsed msg =>
    dsimp only at hstep
    have hptr := hs.sender.ptr
    have hfree := hs.free hroom rfl
    rw [← show mq.sendPtr = slotAddr base size (sent.length % n) from hptr] at hfree
    rw [if_pos hfree] at hstep
    cases hstep
    exact ⟨⟨q, { hs with
      consistent := ht
      sender := { hs.sender with slot := fun p hp => (Option.some.inj hp).symm.trans hptr } }⟩,
      .of_message rfl rfl rfl rfl rfl⟩
  | storeSize msg mqMsg =>
    cases hstep
    obtain ⟨hslot, hfree⟩ := hs.slot_free rfl
    have hlen := hfits msg rfl
    have hsmall := hs.small
    dsimp only at hslot hfree
    subst hslot
    have hsame : SameOutside mem
        (store32 mem (slotAddr base size (sent.length % n)) msg.length) base size
        (sent.length % n) :=
      write_sameOutside le_rfl (by rw [length_wordBytes]; unfold sizeofMqMsg; omega)
    refine ⟨⟨q, hs.hidden ht hsame (flags_store_size ..) hfree rfl rfl
      ⟨hs.sender.ptr, hs.sender.slot, ?_, ?_, nofun⟩⟩, .of_message rfl rfl rfl rfl rfl⟩
    · rintro _ ⟨⟩
      exact hlen
    · rintro _ ⟨⟩
      exact load32_store32 (by omega)
  | copy msg mqMsg =>
    cases hstep
    obtain ⟨-, hfree⟩ := hs.slot_free rfl
    have hlen := hfits msg rfl
    have hptr : mq.sendPtr = slotAddr base size (sent.length % n) := hs.sender.ptr
    have hmeasured := hs.sender.measured msg rfl
    dsimp only at ht hfree hmeasured
    rw [hptr] at ht
    rw [hptr]
    have hsame : SameOutside mem
        (write mem (slotAddr base size (sent.length % n) + sizeofMqMsg) msg) base size
        (sent.length % n) := write_sameOutside (by omega) (by omega)
    have hlength : load32 (write mem (slotAddr base size (sent.length % n) + sizeofMqMsg) msg)
        (slotAddr base size (sent.length % n)) =
          load32 mem (slotAddr base size (sent.length % n)) :=
      load32_write_apart (by unfold sizeofMqMsg; omega)
    refine ⟨⟨q, hs.hidden ht hsame (flags_copy mem base _ hlen) hfree rfl rfl
      ⟨hs.sender.ptr, hs.sender.slot, hs.sender.fits, ?_, ?_⟩⟩, .of_message rfl rfl rfl rfl rfl⟩
    · rintro _ ⟨⟩
      exact hlength.trans hmeasured
    · rintro _ ⟨⟩
      exact read_write ..
  | advance msg mqMsg =>
    cases hstep
    have hmod : sent.length % n < n := Nat.mod_lt _ hs.consistent.layout.slots
    have hptr : mq.sendPtr = slotAddr base size (sent.length % n) := hs.sender.ptr
    have hbehind := hs.consistent.layout.behind hmod
    exact ⟨⟨q, { hs with
      consistent := ht
      sender := { hs.sender with ptr := (congrArg mq.behind hptr).trans hbehind }
      receiver := { hs.receiver with } }⟩, .of_message rfl rfl rfl rfl rfl⟩
  | wrap msg mqMsg =>
    cases hstep
    have hmod : sent.length % n < n := Nat.mod_lt _ hs.consistent.layout.slots
    have hptr : mq.sendPtr = slotAddr base size (sent.length % n + 1) := hs.sender.ptr
    have hwrapped := hs.consistent.layout.wrapped hmod
    rw [Nat.mod_add_mod] at hwrapped
    exact ⟨⟨q, { hs with
      consistent := ht
      sender := { hs.sender with ptr := (congrArg mq.wrapped hptr).trans hwrapped }
      receiver := { hs.receiver with } }⟩, .of_message rfl rfl rfl rfl rfl⟩
  | loadCurmsgs msg mqMsg =>
    cases hstep
    exact ⟨⟨q, { hs with consistent := ht, sender := { hs.sender with } }⟩,
      .of_message rfl rfl rfl rfl rfl⟩
  | storeCurmsgs msg mqMsg loaded =>
    cases hstep
    exact ⟨⟨q, { hs with
      consistent := ht
      sender := { hs.sender with }
      receiver := { hs.receiver with } }⟩, .of_message rfl rfl rfl rfl rfl⟩
  | storeUsed msg mqMsg =>
    have hblocking : mq.blocking = true := hs.blocking
    dsimp only at hstep
    rw [if_pos hblocking] at hstep
    cases hstep
    exact ⟨⟨q ++ [msg], hs.push hroom rfl ht⟩, .of_message rfl rfl rfl rfl rfl⟩
  | post msg =>
    cases hstep
    have hlength := hs.length
    have hfits := hs.ring.fits
    have hunits := hs.units
    obtain ⟨hinit, hmax⟩ := hs.ceiling
    have horder := hs.order
    dsimp only [SendPc.posting, List.length_singleton] at hlength hunits hinit horder
    have hposted : postSem sem = { sem with value := sem.value + 1 } := by
      unfold postSem
      rw [if_neg (by omega), if_pos (by omega)]
    refine ⟨⟨q, { hs with
      consistent := ht
      order := ?_
      sender := ⟨?_, nofun, nofun, nofun, nofun⟩
      ceiling := ?_
      units := ?_ }⟩, rfl, rfl, .inr ⟨msg, rfl, rfl, rfl⟩⟩
    · rw [horder]
      exact (List.append_nil _).symm
    · rw [List.length_append, List.length_singleton]
      exact hs.sender.ptr
    · rw [hposted]
      exact ⟨hinit, hmax⟩
    · rw [hposted, List.length_append, List.length_singleton]
      dsimp only
      omega

/-! One statement of `mq_receive`. -/

/-- A step of the receiver either goes on or ends the call with the oldest message. -/
structure Receives (q : List Message) (s t : Parties) : Prop where
  sent : t.sent = s.sent
  sender : t.sender = s.sender
  received : (t.receiver ≠ .idle ∧ t.received = s.received) ∨
    ∃ msg, q.head? = some msg ∧ t.receiver = .idle ∧ t.received = s.received ++ [msg]

theorem Receives.goes_on (hsent : t.sent = s.sent) (hsender : t.sender = s.sender)
    (hidle : t.receiver ≠ .idle) (hreceived : t.received = s.received) : Receives q s t :=
  ⟨hsent, hsender, .inl ⟨hidle, hreceived⟩⟩

theorem SendPc.slot_of_measured {pc : SendPc} (h : pc.measured = some msg) :
    ∃ p, pc.slot = some p := by
  cases pc <;> first | exact ⟨_, rfl⟩ | cases h

theorem SendPc.measured_of_copied {pc : SendPc} (h : pc.copied = some msg) :
    pc.measured = some msg := by
  cases pc <;> first | exact h | cases h

/-- What has been stored into the slot being filled stays there. -/
theorem SendPc.Fills.sameSlot {pc : SendPc} (h : pc.Fills base size n i mem mq)
    (hsame : ∀ p, pc.slot = some p → SameSlot mem mem' base size (i % n)) :
    pc.Fills base size n i mem' mq where
  ptr := h.ptr
  slot := h.slot
  fits := h.fits
  measured msg hmsg := by
    obtain ⟨p, hp⟩ := SendPc.slot_of_measured hmsg
    exact (hsame p hp).words.1.trans (h.measured msg hmsg)
  copied msg hmsg := by
    have hmeasured := SendPc.measured_of_copied hmsg
    obtain ⟨p, hp⟩ := SendPc.slot_of_measured hmeasured
    have hfits := h.fits msg hmeasured
    refine Eq.trans (read_congr fun x hx hx' => ?_) (h.copied msg hmsg)
    exact hsame p hp x (by omega) (by omega)

/-- `mq_msg->used = 0` takes the message off the queue. -/
theorem Ordered.pop {rest : List Message} (hs : Ordered base size n s (msg :: rest)) {mqMsg : Nat}
    (hpc : s.receiver = .storeUsed msg mqMsg)
    (ht : Consistent base size n { s with
      mem := store32 s.mem (mqMsg + 4) 0
      receiver := .idle
      received := s.received ++ [msg] }) :
    Ordered base size n { s with
      mem := store32 s.mem (mqMsg + 4) 0
      receiver := .idle
      received := s.received ++ [msg] } rest := by
  have hreceiver := hs.receiver
  have hunits := hs.units
  rw [hpc] at hreceiver hunits
  obtain ⟨hslot, hused⟩ := hs.slot_used (p := mqMsg) (by rw [hpc]; rfl)
  subst hslot
  have hsame := clearSlot_sameOutside s.mem base size (s.received.length % n)
  have hmessage := slotMessage_clearSlot s.mem base size (s.received.length % n)
  have hcleared : load32 (store32 s.mem (slotAddr base size (s.received.length % n) + 4) 0)
      (slotAddr base size (s.received.length % n) + 4) = 0 := load32_store32 (by decide)
  refine { hs with
    consistent := ht
    ring := ?_
    sized := hsame.sized hs.sized fun h => absurd hcleared h
    order := ?_
    sender := ?_
    receiver := ⟨?_, nofun, nofun⟩
    units := ?_ }
  · have hpop := hs.ring.pop.congr (hsame.update hs.sized hmessage)
    rw [Nat.mod_add_mod] at hpop
    rw [List.length_append, List.length_singleton]
    exact hpop
  · rw [List.append_assoc]
    exact hs.order
  · -- the slot that is being filled is another one: its flag is not set
    refine hs.sender.sameSlot fun p hp => hsame.sameSlot fun heq => ?_
    have hfree := (hs.slot_free hp).2
    rw [heq, hused] at hfree
    exact one_ne_zero hfree
  · rw [List.length_append, List.length_singleton]
    exact hreceiver.ptr
  · rw [List.length_append, List.length_singleton]
    simp only [RecvPc.taken] at hunits ⊢
    omega

theorem receiverStep_ordered (hs : Ordered base size n s q) (hok : Alternates s .receiver)
    (hstep : receiverStep s = some t) :
    (∃ q', Ordered base size n t q') ∧ Receives q s t := by
  have ht := receiverStep_consistent hs.consistent hok hstep
  obtain ⟨mem, mq, sem, sender, receiver, sent, received⟩ := s
  unfold receiverStep at hstep
  cases receiver with
  | idle => cases hstep
  | semWait =>
    dsimp only at hstep
    split at hstep
    · cases hstep
    next hvalue =>
      cases hstep
      have hunits := hs.units
      exact ⟨⟨q, { hs with
        consistent := ht
        receiver := { hs.receiver with }
        units := by
          simp only [RecvPc.taken] at hunits ⊢
          omega }⟩, .goes_on rfl rfl nofun rfl⟩
  | checkEmpty =>
    dsimp only at hstep
    rw [if_neg (hs.notEmpty rfl rfl)] at hstep
    cases hstep
    exact ⟨⟨q, { hs with consistent := ht, receiver := { hs.receiver with } }⟩,
      .goes_on rfl rfl nofun rfl⟩
  | checkUsed =>
    obtain ⟨msg, hfirst⟩ := Option.ne_none_iff_exists'.mp
      (mt List.head?_eq_none_iff.mp (hs.nonempty rfl))
    have hptr : mq.recvPtr = slotAddr base size (received.length % n) := hs.receiver.ptr
    have hused := (hs.first hfirst).1
    dsimp only at hstep hused
    rw [← hptr] at hused
    rw [if_pos hused] at hstep
    cases hstep
    exact ⟨⟨q, { hs with
      consistent := ht
      receiver := { hs.receiver with
        slot := fun p hp => (Option.some.inj hp).symm.trans hptr } }⟩,
      .goes_on rfl rfl nofun rfl⟩
  | copy mqMsg =>
    cases hstep
    obtain ⟨msg, hfirst⟩ := Option.ne_none_iff_exists'.mp
      (mt List.head?_eq_none_iff.mp (hs.nonempty rfl))
    have hptr : mq.recvPtr = slotAddr base size (received.length % n) := hs.receiver.ptr
    have hslot : mqMsg = slotAddr base size (received.length % n) := hs.receiver.slot mqMsg rfl
    have hread := (hs.first hfirst).2
    dsimp only at hread
    rw [← hslot] at hread
    exact ⟨⟨q, { hs with
      consistent := ht
      receiver := { hs.receiver with
        copied := by
          rintro _ ⟨⟩
          rw [hfirst, hptr, ← hslot, hread] } }⟩,
      .goes_on rfl rfl nofun rfl⟩
  | advance msg mqMsg =>
    cases hstep
    have hmod : received.length % n < n := Nat.mod_lt _ hs.consistent.layout.slots
    have hptr : mq.recvPtr = slotAddr base size (received.length % n) := hs.receiver.ptr
    have hbehind := hs.consistent.layout.behind hmod
    exact ⟨⟨q, { hs with
      consistent := ht
      sender := { hs.sender with }
      receiver := { hs.receiver with ptr := (congrArg mq.behind hptr).trans hbehind } }⟩,
      .goes_on rfl rfl nofun rfl⟩
  | wrap msg mqMsg =>
    cases hstep
    have hmod : received.length % n < n := Nat.mod_lt _ hs.consistent.layout.slots
    have hptr : mq.recvPtr = slotAddr base size (received.length % n + 1) := hs.receiver.ptr
    have hwrapped := hs.consistent.layout.wrapped hmod
    rw [Nat.mod_add_mod] at hwrapped
    exact ⟨⟨q, { hs with
      consistent := ht
      sender := { hs.sender with }
      receiver := { hs.receiver with ptr := (congrArg mq.wrapped hptr).trans hwrapped } }⟩,
      .goes_on rfl rfl nofun rfl⟩
  | loadCurmsgs msg mqMsg =>
    cases hstep
    exact ⟨⟨q, { hs with consistent := ht, receiver := { hs.receiver with } }⟩,
      .goes_on rfl rfl nofun rfl⟩
  | storeCurmsgs msg mqMsg loaded =>
    cases hstep
    exact ⟨⟨q, { hs with
      consistent := ht
      sender := { hs.sender with }
      receiver := { hs.receiver with } }⟩, .goes_on rfl rfl nofun rfl⟩
  | storeUsed msg mqMsg =>
    cases hstep
    have hfirst := hs.receiver.copied msg rfl
    obtain ⟨rest, rfl⟩ := List.head?_eq_some_iff.mp hfirst
    exact ⟨⟨rest, hs.pop rfl ht⟩, rfl, rfl, .inr ⟨msg, rfl, rfl, rfl⟩⟩

/-! The beginning of a call and of a run. -/

theorem Ordered.beginSend (hs : Ordered base size n s q) (hidle : s.sender = .idle)
    (msg : Message) : Ordered base size n { s with sender := .checkFull msg } q := by
  have hstep : partyStep s (.send msg) = some { s with sender := .checkFull msg } := if_pos hidle
  have hsender := hs.sender
  have horder := hs.order
  rw [hidle] at hsender horder
  exact { hs with
    consistent := partyStep_consistent hs.consistent
      (show Alternates s (.send msg) from trivial) hstep
    order := horder
    sender := { hsender with } }

theorem Ordered.beginReceive (hs : Ordered base size n s q) (hidle : s.receiver = .idle) :
    Ordered base size n { s with receiver := .semWait } q := by
  have hstep : partyStep s .receive = some { s with receiver := .semWait } := by
    simp only [partyStep, hidle, if_true, hs.blocking]
  have hreceiver := hs.receiver
  have hunits := hs.units
  rw [hidle] at hreceiver hunits
  exact { hs with
    consistent := partyStep_consistent hs.consistent
      (show Alternates s .receive from trivial) hstep
    receiver := { hreceiver with }
    units := hunits }

/-- A blocking queue that `mq_open` has just returned. -/
theorem Parties.Initial.ordered {attr : MqAttr} (h : s.Initial attr)
    (hblocking : s.mq.blocking = true) (hmaxmsg : 1 ≤ attr.mqMaxmsg)
    (hmaxle : attr.mqMaxmsg ≤ semValueMax) (hmsgsize : 0 ≤ attr.mqMsgsize)
    (hsizele : attr.mqMsgsize ≤ 512) :
    Ordered s.mq.mqPbuf attr.mqMsgsize.toNat attr.mqMaxmsg.toNat s [] := by
  have hmax : semValueMax = 32 := rfl
  have hmaxCast : ((attr.mqMaxmsg.toNat : Nat) : Int) = attr.mqMaxmsg := by omega
  have hsizeT : sizeT attr.mqMsgsize = attr.mqMsgsize.toNat := by
    unfold sizeT
    omega
  have hfound := h.found
  obtain ⟨o, hopen, hmem, hmq, hsem⟩ := h.opened
  have hrefines := hopen.refines hmaxmsg (by omega) hmsgsize hsizele
  have hstores := hrefines.stores
  rw [← hmem, ← hmq] at hstores
  obtain ⟨hunits, hceiling, -⟩ := hrefines.units (hmq ▸ hblocking)
  rw [← hsem] at hunits
  have hslots : s.mq.slots = attr.mqMaxmsg.toNat := by
    unfold Mq.slots
    rw [hstores.pbufSize, hfound.msgsize, hsizeT]
    exact Nat.mul_div_cancel_left _ (Nat.add_pos_left (by decide) _)
  have hproduct : attr.mqMaxmsg * attr.mqMsgsize < 2 ^ 31 := by nlinarith
  have hconsistent := h.consistent hmaxmsg hmsgsize hproduct
  rw [hsizeT, hslots] at hconsistent
  have hpos := hconsistent.layout.slots
  have hempty : ∀ j < attr.mqMaxmsg.toNat,
      load32 s.mem (slotAddr s.mq.mqPbuf attr.mqMsgsize.toNat j + 4) = 0 := by
    intro j hj
    rw [← hsizeT, ← hfound.msgsize]
    exact hfound.used (hslots ▸ hj)
  have hzero : slotAddr s.mq.mqPbuf attr.mqMsgsize.toNat (0 % attr.mqMaxmsg.toNat) =
      s.mq.mqPbuf := by
    rw [Nat.zero_mod]
    rfl
  refine ⟨hconsistent, hblocking, by rw [hfound.maxmsg, hmaxCast], by omega, ?_, hstores.sized,
    ?_, ?_, ?_, ?_, ?_⟩
  · rw [h.received]
    refine ⟨Nat.mod_lt _ hpos, Nat.zero_le _, fun i _ => ?_⟩
    exact if_pos (hempty _ (Nat.mod_lt _ hpos))
  · rw [h.received, h.sent, h.sender]
    rfl
  · rw [h.sent, h.sender]
    exact ⟨hfound.sendPtr.trans hzero.symm, nofun, nofun, nofun, nofun⟩
  · rw [h.received, h.receiver]
    exact ⟨hfound.recvPtr.trans hzero.symm, nofun, nofun⟩
  · rw [hunits]
    exact ⟨rfl, hceiling⟩
  · rw [hunits, h.received, h.sent, h.receiver]
    rfl

end PosixRtos.Mqueue
