import PosixRtos.Mqueue.Calls
import PosixRtos.Library.Counting

/-! One sender and one receiver on the same queue, statement by statement.
`mq_send` holds `w_mutex` and `mq_receive` holds `r_mutex`, so nothing keeps their
loads and stores of the queue's fields apart. With one thread on each side the
mutexes are never contended and are left out; the semaphore's calls are masked
sections and therefore single steps. -/
namespace PosixRtos.Mqueue

open PosixRtos.Kernel PosixRtos.Library.ByteMemory PosixRtos.Library.Runs
  PosixRtos.Library.Counting

/-- Where `mq_send` is: the statement that comes next, with the locals that are
still to be used. `mqMsg` is the slot, `loaded` the register of `mq_curmsgs++`. -/
inductive SendPc where
  | idle
  | checkFull (msg : Message)
  | checkUsed (msg : Message)
  | storeSize (msg : Message) (mqMsg : Nat)
  | copy (msg : Message) (mqMsg : Nat)
  | advance (msg : Message) (mqMsg : Nat)
  | wrap (msg : Message) (mqMsg : Nat)
  | loadCurmsgs (msg : Message) (mqMsg : Nat)
  | storeCurmsgs (msg : Message) (mqMsg : Nat) (loaded : Int)
  | storeUsed (msg : Message) (mqMsg : Nat)
  | post (msg : Message)
deriving DecidableEq

/-- Where `mq_receive` is. -/
inductive RecvPc where
  | idle
  | semWait
  | checkEmpty
  | checkUsed
  | copy (mqMsg : Nat)
  | advance (msg : Message) (mqMsg : Nat)
  | wrap (msg : Message) (mqMsg : Nat)
  | loadCurmsgs (msg : Message) (mqMsg : Nat)
  | storeCurmsgs (msg : Message) (mqMsg : Nat) (loaded : Int)
  | storeUsed (msg : Message) (mqMsg : Nat)
deriving DecidableEq

/-- `sent` and `received` are the messages of the calls that have succeeded. -/
structure Parties where
  mem : Memory
  mq : Mq
  sem : Sem
  sender : SendPc
  receiver : RecvPc
  sent : List Message
  received : List Message

inductive PartyAct where
  | send (msg : Message)
  | receive
  | sender
  | receiver

/-- What `sem_post` does to the count. -/
def postSem (sem : Sem) : Sem :=
  if semValueMax ≤ sem.value then sem
  else if sem.value < sem.initValue then { sem with value := sem.value + 1 } else sem

def Mq.setCurmsgs (mq : Mq) (curmsgs : Int) : Mq :=
  { mq with mqAttr := { mq.mqAttr with mqCurmsgs := curmsgs } }

/-- The next statement of `mq_send`. -/
def senderStep (s : Parties) : Option Parties :=
  match s.sender with
  | .idle => none
  | .checkFull msg =>
      if s.mq.mqAttr.mqMaxmsg ≤ s.mq.mqAttr.mqCurmsgs then some { s with sender := .idle }
      else if sizeT s.mq.mqAttr.mqMsgsize < msg.length then some { s with sender := .idle }
      else some { s with sender := .checkUsed msg }
  | .checkUsed msg =>
      if load32 s.mem (s.mq.sendPtr + 4) = 0 then
        some { s with sender := .storeSize msg s.mq.sendPtr }
      else some { s with sender := .idle }
  | .storeSize msg mqMsg =>
      some { s with mem := store32 s.mem mqMsg msg.length, sender := .copy msg mqMsg }
  | .copy msg mqMsg =>
      some { s with
        mem := write s.mem (s.mq.sendPtr + sizeofMqMsg) msg
        sender := .advance msg mqMsg }
  | .advance msg mqMsg =>
      some { s with
        mq := { s.mq with sendPtr := s.mq.behind s.mq.sendPtr }
        sender := .wrap msg mqMsg }
  | .wrap msg mqMsg =>
      some { s with
        mq := { s.mq with sendPtr := s.mq.wrapped s.mq.sendPtr }
        sender := .loadCurmsgs msg mqMsg }
  | .loadCurmsgs msg mqMsg =>
      some { s with sender := .storeCurmsgs msg mqMsg s.mq.mqAttr.mqCurmsgs }
  | .storeCurmsgs msg mqMsg loaded =>
      some { s with mq := s.mq.setCurmsgs (loaded + 1), sender := .storeUsed msg mqMsg }
  | .storeUsed msg mqMsg =>
      let s := { s with mem := store32 s.mem (mqMsg + 4) 1 }
      if s.mq.blocking then some { s with sender := .post msg }
      else some { s with sender := .idle, sent := s.sent ++ [msg] }
  | .post msg => some { s with sem := postSem s.sem, sender := .idle, sent := s.sent ++ [msg] }

/-- The next statement of `mq_receive`; `sem_wait` waits for a unit. -/
def receiverStep (s : Parties) : Option Parties :=
  match s.receiver with
  | .idle => none
  | .semWait =>
      if s.sem.value = 0 then none
      else some { s with
        sem := { s.sem with value := s.sem.value - 1 }
        receiver := .checkEmpty }
  | .checkEmpty =>
      if s.mq.mqAttr.mqCurmsgs = 0 then some { s with receiver := .idle }
      else some { s with receiver := .checkUsed }
  | .checkUsed =>
      if load32 s.mem (s.mq.recvPtr + 4) ≠ 0 then
        some { s with receiver := .copy s.mq.recvPtr }
      else some { s with receiver := .idle }
  | .copy mqMsg =>
      let msg := read s.mem (s.mq.recvPtr + sizeofMqMsg) (load32 s.mem mqMsg)
      some { s with receiver := .advance msg mqMsg }
  | .advance msg mqMsg =>
      some { s with
        mq := { s.mq with recvPtr := s.mq.behind s.mq.recvPtr }
        receiver := .wrap msg mqMsg }
  | .wrap msg mqMsg =>
      some { s with
        mq := { s.mq with recvPtr := s.mq.wrapped s.mq.recvPtr }
        receiver := .loadCurmsgs msg mqMsg }
  | .loadCurmsgs msg mqMsg =>
      some { s with receiver := .storeCurmsgs msg mqMsg s.mq.mqAttr.mqCurmsgs }
  | .storeCurmsgs msg mqMsg loaded =>
      some { s with mq := s.mq.setCurmsgs (loaded - 1), receiver := .storeUsed msg mqMsg }
  | .storeUsed msg mqMsg =>
      some { s with
        mem := store32 s.mem (mqMsg + 4) 0
        receiver := .idle
        received := s.received ++ [msg] }

def partyStep (s : Parties) : PartyAct → Option Parties
  | .send msg => if s.sender = .idle then some { s with sender := .checkFull msg } else none
  | .receive =>
      if s.receiver = .idle then
        some { s with receiver := if s.mq.blocking then .semWait else .checkEmpty }
      else none
  | .sender => senderStep s
  | .receiver => receiverStep s

/-- A queue that `mq_open` has returned, with neither party in a call. The heap
gives no block for a buffer of no bytes. -/
structure Parties.Initial (attr : MqAttr) (s : Parties) : Prop where
  opened : ∃ o, Opened attr o ∧ s.mem = o.mem ∧ s.mq = o.mq ∧ s.sem = o.kernel.sem o.mq.objects.sem
  buffer : 0 < s.mq.mqPbufSize
  sender : s.sender = .idle
  receiver : s.receiver = .idle
  sent : s.sent = []
  received : s.received = []

/-- The slots of the buffer. -/
def Mq.slots (mq : Mq) : Nat := mq.mqPbufSize / (sizeofMqMsg + sizeT mq.mqAttr.mqMsgsize)

/-- The flag `used` of slot `j`. -/
def Parties.used (s : Parties) (j : Nat) : Nat :=
  load32 s.mem (slotAddr s.mq.mqPbuf (sizeT s.mq.mqAttr.mqMsgsize) j + 4)

/-- How many slots have `used = 1`. -/
def Parties.usedSlots (s : Parties) : Nat := Nat.count (fun j => s.used j = 1) s.mq.slots

/-- What a party has loaded from `mq_curmsgs` and will store back changed. -/
def SendPc.loaded : SendPc → Option Int
  | .storeCurmsgs _ _ loaded => some loaded
  | _ => none

def RecvPc.loaded : RecvPc → Option Int
  | .storeCurmsgs _ _ loaded => some loaded
  | _ => none

def SendPc.loads : SendPc → Bool
  | .loadCurmsgs _ _ => true
  | _ => false

def RecvPc.loads : RecvPc → Bool
  | .loadCurmsgs _ _ => true
  | _ => false

/-- A party does not load `mq_curmsgs` to change it while the other one is
between its load and its store. -/
def Alternates (s : Parties) : PartyAct → Prop
  | .sender => s.sender.loads = true → s.receiver.loaded = none
  | .receiver => s.receiver.loads = true → s.sender.loaded = none
  | _ => True

instance (s : Parties) : ∀ act, Decidable (Alternates s act)
  | .sender | .receiver => inferInstanceAs (Decidable (_ → _))
  | .send _ | .receive => .isTrue trivial

/-! The flags of the slots under the stores of the two parties. -/

section Flags

variable {mem : Memory} {base size n i j : Nat} {msg : Message}

/-- The flags `used` of the slots. -/
def flags (mem : Memory) (base size : Nat) : Nat → Nat :=
  fun j => load32 mem (slotAddr base size j + 4)

/-- The word `msg_size` of a slot is no flag. -/
theorem flags_store_size (mem : Memory) (base size i value : Nat) :
    flags (store32 mem (slotAddr base size i) value) base size = flags mem base size := by
  funext j
  unfold flags store32
  apply load32_write_apart
  rw [length_wordBytes]
  by_cases hij : i = j
  · subst hij
    omega
  · have hapart := slotAddr_apart base size hij
    unfold sizeofMqMsg at hapart
    omega

/-- A message that fits its slot is copied over no flag. -/
theorem flags_copy (mem : Memory) (base i : Nat) (hlen : msg.length ≤ size) :
    flags (write mem (slotAddr base size i + sizeofMqMsg) msg) base size =
      flags mem base size := by
  funext j
  unfold flags
  apply load32_write_apart
  unfold sizeofMqMsg
  by_cases hij : i = j
  · subst hij
    omega
  · have hapart := slotAddr_apart base size hij
    unfold sizeofMqMsg at hapart
    omega

theorem flags_store_used (mem : Memory) (base size i : Nat) {value : Nat}
    (hvalue : value < 2 ^ 32) :
    flags (store32 mem (slotAddr base size i + 4) value) base size =
      Function.update (flags mem base size) i value := by
  funext j
  unfold flags
  by_cases hij : j = i
  · subst hij
    rw [Function.update_self]
    exact load32_store32 hvalue
  · rw [Function.update_of_ne hij]
    unfold store32
    apply load32_write_apart
    have hapart := slotAddr_apart base size hij
    rw [length_wordBytes]
    unfold sizeofMqMsg at hapart
    omega

end Flags

/-! What holds between any two statements. -/

/-- Between the addition and the comparison the pointer may be behind the buffer. -/
def SendPc.past : SendPc → Nat
  | .wrap _ _ => 1
  | _ => 0

def RecvPc.past : RecvPc → Nat
  | .wrap _ _ => 1
  | _ => 0

/-- The message that has been compared with `mq_msgsize` and is not yet copied. -/
def SendPc.checked : SendPc → Option Message
  | .checkUsed msg | .storeSize msg _ | .copy msg _ => some msg
  | _ => none

/-- The slot that `mq_send` has found free and not yet marked. -/
def SendPc.slot : SendPc → Option Nat
  | .storeSize _ mqMsg | .copy _ mqMsg | .advance _ mqMsg | .wrap _ mqMsg | .loadCurmsgs _ mqMsg
  | .storeCurmsgs _ mqMsg _ | .storeUsed _ mqMsg => some mqMsg
  | _ => none

/-- The slot that `mq_receive` has found in use and not yet cleared. -/
def RecvPc.slot : RecvPc → Option Nat
  | .copy mqMsg | .advance _ mqMsg | .wrap _ mqMsg | .loadCurmsgs _ mqMsg
  | .storeCurmsgs _ mqMsg _ | .storeUsed _ mqMsg => some mqMsg
  | _ => none

/-- A message that is counted in `mq_curmsgs` and whose call has not returned. -/
def SendPc.counted : SendPc → Nat
  | .storeUsed _ _ | .post _ => 1
  | _ => 0

/-- A message that is marked in its slot and whose call has not returned. -/
def SendPc.marked : SendPc → Nat
  | .post _ => 1
  | _ => 0

/-- A message that is no longer counted and whose call has not returned. -/
def RecvPc.discounted : RecvPc → Nat
  | .storeUsed _ _ => 1
  | _ => 0

/-- What `mq_send` knows at its next statement. -/
structure SendPc.Knows (base size n : Nat) (mem : Memory) (mq : Mq) (pc : SendPc) : Prop where
  ptr : ∃ j < n, mq.sendPtr = slotAddr base size (j + pc.past)
  fits : ∀ msg, pc.checked = some msg → msg.length ≤ size
  slot : ∀ p, pc.slot = some p → ∃ j < n, p = slotAddr base size j ∧ flags mem base size j = 0
  loaded : ∀ v, pc.loaded = some v → v = mq.mqAttr.mqCurmsgs

structure RecvPc.Knows (base size n : Nat) (mem : Memory) (mq : Mq) (pc : RecvPc) : Prop where
  ptr : ∃ j < n, mq.recvPtr = slotAddr base size (j + pc.past)
  slot : ∀ p, pc.slot = some p → ∃ j < n, p = slotAddr base size j ∧ flags mem base size j = 1
  loaded : ∀ v, pc.loaded = some v → v = mq.mqAttr.mqCurmsgs

structure Consistent (base size n : Nat) (s : Parties) : Prop where
  layout : Layout base size n s.mq
  flags : ∀ j < n, flags s.mem base size j ≤ 1
  sender : s.sender.Knows base size n s.mem s.mq
  receiver : s.receiver.Knows base size n s.mem s.mq
  apart : s.sender.loaded = none ∨ s.receiver.loaded = none
  marked : Nat.count (fun j => Mqueue.flags s.mem base size j = 1) n + s.received.length =
    s.sent.length + s.sender.marked
  counted : s.mq.mqAttr.mqCurmsgs + s.received.length + s.receiver.discounted =
    s.sent.length + s.sender.counted

variable {base size n : Nat} {s t : Parties} {mem : Memory} {mq : Mq}

theorem SendPc.Knows.idle {pc : SendPc} (h : pc.Knows base size n mem mq) (hpast : pc.past = 0) :
    SendPc.idle.Knows base size n mem mq where
  ptr := by
    obtain ⟨j, hj, hptr⟩ := h.ptr
    rw [hpast] at hptr
    exact ⟨j, hj, hptr⟩
  fits := nofun
  slot := nofun
  loaded := nofun

theorem RecvPc.Knows.idle {pc : RecvPc} (h : pc.Knows base size n mem mq) (hpast : pc.past = 0) :
    RecvPc.idle.Knows base size n mem mq where
  ptr := by
    obtain ⟨j, hj, hptr⟩ := h.ptr
    rw [hpast] at hptr
    exact ⟨j, hj, hptr⟩
  slot := nofun
  loaded := nofun

/-- A party knows the same in memory with the same flags. -/
theorem SendPc.Knows.sameFlags {pc : SendPc} {mem' : Memory} (h : pc.Knows base size n mem mq)
    (hflags : flags mem' base size = flags mem base size) : pc.Knows base size n mem' mq :=
  { h with slot := by rw [hflags]; exact h.slot }

theorem RecvPc.Knows.sameFlags {pc : RecvPc} {mem' : Memory} (h : pc.Knows base size n mem mq)
    (hflags : flags mem' base size = flags mem base size) : pc.Knows base size n mem' mq :=
  { h with slot := by rw [hflags]; exact h.slot }

/-- Stores that leave the flags alone. -/
theorem Consistent.sameFlags {mem' : Memory} (hs : Consistent base size n s)
    (hflags : Mqueue.flags mem' base size = Mqueue.flags s.mem base size) :
    Consistent base size n { s with mem := mem' } where
  layout := hs.layout
  flags := by
    dsimp only
    rw [hflags]
    exact hs.flags
  sender := hs.sender.sameFlags hflags
  receiver := hs.receiver.sameFlags hflags
  apart := hs.apart
  marked := by
    dsimp only
    rw [hflags]
    exact hs.marked
  counted := hs.counted

/-- The slot that the receiver is at keeps its flag when another one is marked. -/
theorem RecvPc.Knows.mark {pc : RecvPc} {mem' : Memory} {j : Nat}
    (h : pc.Knows base size n mem mq)
    (hflags : flags mem' base size = Function.update (flags mem base size) j 1) :
    pc.Knows base size n mem' mq where
  ptr := h.ptr
  slot p hp := by
    obtain ⟨i, hi, hpi, hflag⟩ := h.slot p hp
    refine ⟨i, hi, hpi, ?_⟩
    rw [hflags]
    by_cases hij : i = j
    · rw [hij, Function.update_self]
    · rw [Function.update_of_ne hij, hflag]
  loaded := h.loaded

theorem SendPc.Knows.clear {pc : SendPc} {mem' : Memory} {j : Nat}
    (h : pc.Knows base size n mem mq)
    (hflags : flags mem' base size = Function.update (flags mem base size) j 0) :
    pc.Knows base size n mem' mq where
  ptr := h.ptr
  fits := h.fits
  slot p hp := by
    obtain ⟨i, hi, hpi, hflag⟩ := h.slot p hp
    refine ⟨i, hi, hpi, ?_⟩
    rw [hflags]
    by_cases hij : i = j
    · rw [hij, Function.update_self]
    · rw [Function.update_of_ne hij, hflag]
  loaded := h.loaded

theorem flags_update_le {f : Nat → Nat} {j v : Nat} (hf : ∀ i < n, f i ≤ 1) (hv : v ≤ 1) :
    ∀ i < n, Function.update f j v i ≤ 1 := by
  intro i hi
  by_cases hij : i = j
  · rw [hij, Function.update_self]
    exact hv
  · rw [Function.update_of_ne hij]
    exact hf i hi

theorem senderStep_consistent (hs : Consistent base size n s) (hok : Alternates s .sender)
    (hstep : senderStep s = some t) : Consistent base size n t := by
  obtain ⟨mem, mq, sem, sender, receiver, sent, received⟩ := s
  unfold senderStep at hstep
  cases sender with
  | idle => cases hstep
  | checkFull msg =>
    dsimp only at hstep
    split at hstep
    · cases hstep
      exact { hs with sender := hs.sender.idle rfl }
    split at hstep
    · cases hstep
      exact { hs with sender := hs.sender.idle rfl }
    next hlen =>
      cases hstep
      have hfits : msg.length ≤ size := by
        rw [← hs.layout.msgsize]
        exact Nat.le_of_not_lt hlen
      exact { hs with sender := { hs.sender with fits := fun _ h => Option.some.inj h ▸ hfits } }
  | checkUsed msg =>
    dsimp only at hstep
    split at hstep
    next hfree =>
      cases hstep
      obtain ⟨j, hj, hptr⟩ := hs.sender.ptr
      have hflag : flags mem base size j = 0 := by
        unfold flags
        rw [← hfree, hptr]
        rfl
      exact { hs with sender := { hs.sender with
        slot := fun _ h => ⟨j, hj, Option.some.inj h ▸ hptr, hflag⟩ } }
    · cases hstep
      exact { hs with sender := hs.sender.idle rfl }
  | storeSize msg mqMsg =>
    cases hstep
    obtain ⟨j, -, hp, -⟩ := hs.sender.slot mqMsg rfl
    have hmem := hs.sameFlags (hp ▸ flags_store_size mem base size j msg.length)
    exact { hmem with sender := { hmem.sender with } }
  | copy msg mqMsg =>
    cases hstep
    obtain ⟨j, -, hp⟩ := hs.sender.ptr
    have hmem := hs.sameFlags (hp ▸ flags_copy mem base j (hs.sender.fits msg rfl))
    exact { hmem with sender := { hmem.sender with fits := nofun } }
  | advance msg mqMsg =>
    cases hstep
    obtain ⟨j, hj, hp⟩ := hs.sender.ptr
    have hbehind := hs.layout.behind hj
    exact { hs with
      layout := { hs.layout with }
      sender := { hs.sender with ptr := ⟨j, hj, (congrArg mq.behind hp).trans hbehind⟩ }
      receiver := { hs.receiver with } }
  | wrap msg mqMsg =>
    cases hstep
    obtain ⟨j, hj, hp⟩ := hs.sender.ptr
    have hwrapped := hs.layout.wrapped hj
    have hmod : (j + 1) % n < n := Nat.mod_lt _ hs.layout.slots
    exact { hs with
      layout := { hs.layout with }
      sender := { hs.sender with ptr := ⟨_, hmod, (congrArg mq.wrapped hp).trans hwrapped⟩ }
      receiver := { hs.receiver with } }
  | loadCurmsgs msg mqMsg =>
    cases hstep
    exact { hs with
      sender := { hs.sender with loaded := fun _ h => (Option.some.inj h).symm }
      apart := .inr (hok rfl) }
  | storeCurmsgs msg mqMsg loaded =>
    cases hstep
    have hreceiver : receiver.loaded = none := hs.apart.resolve_left nofun
    have hloaded : loaded = mq.mqAttr.mqCurmsgs := hs.sender.loaded loaded rfl
    have hcounted := hs.counted
    exact { hs with
      layout := { hs.layout with }
      sender := { hs.sender with loaded := nofun }
      receiver := { hs.receiver with loaded := fun _ h => by rw [hreceiver] at h; cases h }
      apart := .inl rfl
      counted := by
        subst hloaded
        simp only [SendPc.counted, Mq.setCurmsgs] at hcounted ⊢
        omega }
  | storeUsed msg mqMsg =>
    obtain ⟨j, hj, hp, hfree⟩ := hs.sender.slot mqMsg rfl
    have hflags : flags (store32 mem (mqMsg + 4) 1) base size =
        Function.update (flags mem base size) j 1 :=
      hp ▸ flags_store_used mem base size j (by decide)
    have hcount := count_update_enter (f := flags mem base size) hj (hfree ▸ zero_ne_one)
    have hmarked := hs.marked
    have hcounted := hs.counted
    simp only [SendPc.marked, SendPc.counted] at hmarked hcounted
    have hsame := flags_update_le (j := j) hs.flags le_rfl
    dsimp only at hstep
    split at hstep
    · cases hstep
      exact { hs with
        flags := hflags ▸ hsame
        sender := { hs.sender with slot := nofun }
        receiver := hs.receiver.mark hflags
        marked := by
          simp only [hflags, SendPc.marked]
          omega }
    · cases hstep
      exact { hs with
        flags := hflags ▸ hsame
        sender := { hs.sender with slot := nofun }
        receiver := hs.receiver.mark hflags
        marked := by
          simp only [hflags, SendPc.marked, List.length_append, List.length_singleton]
          omega
        counted := by
          simp only [SendPc.counted, List.length_append, List.length_singleton]
          omega }
  | post msg =>
    cases hstep
    have hmarked := hs.marked
    have hcounted := hs.counted
    simp only [SendPc.marked, SendPc.counted] at hmarked hcounted
    exact { hs with
      sender := hs.sender.idle rfl
      marked := by
        simp only [SendPc.marked, List.length_append, List.length_singleton]
        omega
      counted := by
        simp only [SendPc.counted, List.length_append, List.length_singleton]
        omega }

theorem receiverStep_consistent (hs : Consistent base size n s) (hok : Alternates s .receiver)
    (hstep : receiverStep s = some t) : Consistent base size n t := by
  obtain ⟨mem, mq, sem, sender, receiver, sent, received⟩ := s
  unfold receiverStep at hstep
  cases receiver with
  | idle => cases hstep
  | semWait =>
    dsimp only at hstep
    split at hstep
    · cases hstep
    · cases hstep
      exact { hs with receiver := { hs.receiver with } }
  | checkEmpty =>
    dsimp only at hstep
    split at hstep
    · cases hstep
      exact { hs with receiver := hs.receiver.idle rfl }
    · cases hstep
      exact { hs with receiver := { hs.receiver with } }
  | checkUsed =>
    dsimp only at hstep
    split at hstep
    next hused =>
      cases hstep
      obtain ⟨j, hj, hptr⟩ := hs.receiver.ptr
      have hflag : flags mem base size j = 1 := by
        have hle := hs.flags j hj
        rw [hptr] at hused
        exact Nat.le_antisymm hle (Nat.pos_of_ne_zero hused)
      exact { hs with receiver := { hs.receiver with
        slot := fun _ h => ⟨j, hj, Option.some.inj h ▸ hptr, hflag⟩ } }
    · cases hstep
      exact { hs with receiver := hs.receiver.idle rfl }
  | copy mqMsg =>
    cases hstep
    exact { hs with receiver := { hs.receiver with } }
  | advance msg mqMsg =>
    cases hstep
    obtain ⟨j, hj, hp⟩ := hs.receiver.ptr
    have hbehind := hs.layout.behind hj
    exact { hs with
      layout := { hs.layout with }
      sender := { hs.sender with }
      receiver := { hs.receiver with ptr := ⟨j, hj, (congrArg mq.behind hp).trans hbehind⟩ } }
  | wrap msg mqMsg =>
    cases hstep
    obtain ⟨j, hj, hp⟩ := hs.receiver.ptr
    have hwrapped := hs.layout.wrapped hj
    have hmod : (j + 1) % n < n := Nat.mod_lt _ hs.layout.slots
    exact { hs with
      layout := { hs.layout with }
      sender := { hs.sender with }
      receiver := { hs.receiver with
        ptr := ⟨_, hmod, (congrArg mq.wrapped hp).trans hwrapped⟩ } }
  | loadCurmsgs msg mqMsg =>
    cases hstep
    exact { hs with
      receiver := { hs.receiver with loaded := fun _ h => (Option.some.inj h).symm }
      apart := .inl (hok rfl) }
  | storeCurmsgs msg mqMsg loaded =>
    cases hstep
    have hsender : sender.loaded = none := hs.apart.resolve_right nofun
    have hloaded : loaded = mq.mqAttr.mqCurmsgs := hs.receiver.loaded loaded rfl
    have hcounted := hs.counted
    exact { hs with
      layout := { hs.layout with }
      sender := { hs.sender with loaded := fun _ h => by rw [hsender] at h; cases h }
      receiver := { hs.receiver with loaded := nofun }
      apart := .inr rfl
      counted := by
        subst hloaded
        simp only [RecvPc.discounted, Mq.setCurmsgs] at hcounted ⊢
        omega }
  | storeUsed msg mqMsg =>
    cases hstep
    obtain ⟨j, hj, hp, hused⟩ := hs.receiver.slot mqMsg rfl
    have hflags : flags (store32 mem (mqMsg + 4) 0) base size =
        Function.update (flags mem base size) j 0 :=
      hp ▸ flags_store_used mem base size j (by decide)
    have hcount := count_update_leave (f := flags mem base size) hj hused zero_ne_one
    have hmarked := hs.marked
    have hcounted := hs.counted
    simp only [RecvPc.discounted] at hmarked hcounted
    exact { hs with
      flags := hflags ▸ flags_update_le hs.flags zero_le_one
      sender := hs.sender.clear hflags
      receiver := { hs.receiver with slot := nofun }
      marked := by
        simp only [hflags, List.length_append, List.length_singleton]
        omega
      counted := by
        simp only [RecvPc.discounted, List.length_append, List.length_singleton]
        omega }

theorem partyStep_consistent {act : PartyAct} (hs : Consistent base size n s)
    (hok : Alternates s act) (hstep : partyStep s act = some t) : Consistent base size n t := by
  cases act with
  | send msg =>
    unfold partyStep at hstep
    dsimp only at hstep
    split at hstep
    next hidle =>
      cases hstep
      have hsender := hs.sender
      have hmarked := hs.marked
      have hcounted := hs.counted
      rw [hidle] at hsender hmarked hcounted
      exact { hs with
        sender := { hsender with }
        apart := .inl rfl
        marked := hmarked
        counted := hcounted }
    · cases hstep
  | receive =>
    unfold partyStep at hstep
    dsimp only at hstep
    split at hstep
    next hidle =>
      have hreceiver := hs.receiver
      have hcounted := hs.counted
      rw [hidle] at hreceiver hcounted
      cases hstep
      split
      · exact { hs with
          receiver := { hreceiver with }
          apart := .inr rfl
          counted := hcounted }
      · exact { hs with
          receiver := { hreceiver with }
          apart := .inr rfl
          counted := hcounted }
    · cases hstep
  | sender => exact senderStep_consistent hs hok hstep
  | receiver => exact receiverStep_consistent hs hok hstep

theorem Layout.usedSlots (h : Layout base size n s.mq) :
    s.usedSlots = Nat.count (fun j => flags s.mem base size j = 1) n := by
  have hpos : 0 < sizeofMqMsg + size := Nat.add_pos_left (by decide) size
  have hslots : s.mq.slots = n := by
    unfold Mq.slots
    rw [h.pbufSize, h.msgsize, Nat.mul_div_cancel_left n hpos]
  unfold Parties.usedSlots Parties.used
  rw [hslots, h.pbuf, h.msgsize]
  rfl

/-! The queue that `mq_open` returns. -/

section Opening

variable {attr : MqAttr}

/-- The buffer is a whole number of slots, also where its length is taken modulo `2 ^ 32`. -/
theorem slot_dvd_buffer (hmaxmsg : 1 ≤ attr.mqMaxmsg) (hmsgsize : 0 ≤ attr.mqMsgsize)
    (hproduct : attr.mqMaxmsg * attr.mqMsgsize ≤ 512) :
    sizeofMqMsg + sizeT attr.mqMsgsize ∣
      (sizeofMqMsg + sizeT attr.mqMsgsize) * sizeT attr.mqMaxmsg % 2 ^ 32 := by
  rcases hmsgsize.eq_or_lt with hzero | hpos
  · rw [← hzero]
    have hdvd : sizeofMqMsg ∣ 2 ^ 32 := by decide
    exact (Nat.dvd_mod_iff hdvd).mpr (Nat.dvd_mul_right _ _)
  · have hmax : attr.mqMaxmsg ≤ 512 := by nlinarith
    have hsize : attr.mqMsgsize ≤ 512 := by nlinarith
    have hbytes : (sizeofMqMsg + sizeT attr.mqMsgsize) * sizeT attr.mqMaxmsg ≤ 520 * 512 := by
      apply Nat.mul_le_mul
      · unfold sizeofMqMsg sizeT
        omega
      · unfold sizeT
        omega
    rw [Nat.mod_eq_of_lt (by omega)]
    exact Nat.dvd_mul_right _ _

/-- What the parties find. -/
structure Parties.Found (attr : MqAttr) (s : Parties) : Prop where
  maxmsg : s.mq.mqAttr.mqMaxmsg = attr.mqMaxmsg
  msgsize : s.mq.mqAttr.mqMsgsize = attr.mqMsgsize
  curmsgs : s.mq.mqAttr.mqCurmsgs = 0
  product : attr.product ≤ 512
  pbufSize : s.mq.mqPbufSize = (sizeofMqMsg + sizeT attr.mqMsgsize) * sizeT attr.mqMaxmsg % 2 ^ 32
  below : s.mq.mqPbuf + s.mq.mqPbufSize < 2 ^ 32
  sendPtr : s.mq.sendPtr = s.mq.mqPbuf
  recvPtr : s.mq.recvPtr = s.mq.mqPbuf
  cleared : ∃ mem, s.mem = write mem s.mq.mqPbuf (List.replicate s.mq.mqPbufSize 0)

theorem Parties.Initial.found (h : s.Initial attr) : s.Found attr := by
  obtain ⟨o, ⟨⟨k, mem, name, flag, mode, buffer, objects, hopen⟩, hbelow⟩, hmem, hmq, -⟩ := h.opened
  obtain ⟨hproduct, p, objects, k₁, -, -, hfilled, hcleared, -⟩ := mqOpen_ok hopen
  rw [← hmq] at hbelow hcleared hfilled
  have hp : s.mq.mqPbuf = p := by rw [hfilled]; rfl
  exact {
    maxmsg := by rw [hfilled]; rfl
    msgsize := by rw [hfilled]; rfl
    curmsgs := by rw [hfilled]; rfl
    product := hproduct
    pbufSize := by rw [hfilled]; rfl
    below := hbelow
    sendPtr := by rw [hfilled]; rfl
    recvPtr := by rw [hfilled]; rfl
    cleared := ⟨mem, by rw [hmem, hcleared, hp]⟩ }

/-- No slot is marked in a queue that has just been opened. -/
theorem Parties.Found.used (h : s.Found attr) {j : Nat} (hj : j < s.mq.slots) : s.used j = 0 := by
  obtain ⟨mem, hcleared⟩ := h.cleared
  unfold Parties.used
  have hend := Nat.mul_le_of_le_div _ _ _ (show j + 1 ≤ s.mq.slots from hj)
  rw [hcleared]
  unfold slotAddr
  apply load32_clear
  · omega
  · rw [Nat.succ_mul, Nat.mul_comm] at hend
    unfold sizeofMqMsg at hend ⊢
    omega

theorem Parties.Initial.consistent (h : s.Initial attr) (hmaxmsg : 1 ≤ attr.mqMaxmsg)
    (hmsgsize : 0 ≤ attr.mqMsgsize) (hproduct : attr.mqMaxmsg * attr.mqMsgsize < 2 ^ 31) :
    Consistent s.mq.mqPbuf (sizeT attr.mqMsgsize) s.mq.slots s := by
  have hfound := h.found
  have hnonneg : 0 ≤ attr.mqMaxmsg * attr.mqMsgsize := Int.mul_nonneg (by omega) hmsgsize
  have hlimit := hfound.product
  rw [MqAttr.product_eq (by omega) hproduct] at hlimit
  have hexact : (sizeofMqMsg + sizeT attr.mqMsgsize) * s.mq.slots = s.mq.mqPbufSize := by
    unfold Mq.slots
    rw [hfound.msgsize]
    apply Nat.mul_div_cancel'
    rw [hfound.pbufSize]
    exact slot_dvd_buffer hmaxmsg hmsgsize hlimit
  have hslots : 0 < s.mq.slots := by
    have hbuffer := h.buffer
    rw [← hexact] at hbuffer
    exact Nat.pos_of_mul_pos_left hbuffer
  have hflags : ∀ j < s.mq.slots, flags s.mem s.mq.mqPbuf (sizeT attr.mqMsgsize) j = 0 := by
    intro j hj
    rw [← hfound.msgsize]
    exact hfound.used hj
  have hcount : Nat.count (fun j => flags s.mem s.mq.mqPbuf (sizeT attr.mqMsgsize) j = 1)
      s.mq.slots = 0 := by
    apply Nat.count_of_forall_not
    intro j hj
    rw [hflags j hj]
    exact zero_ne_one
  exact {
    layout := {
      pbuf := rfl
      msgsize := by rw [hfound.msgsize]
      pbufSize := hexact.symm
      slots := hslots
      below := by
        have hbelow := hfound.below
        rwa [← hexact] at hbelow }
    flags := fun j hj => (hflags j hj).trans_le zero_le_one
    sender := by
      rw [h.sender]
      exact ⟨⟨0, hslots, hfound.sendPtr⟩, nofun, nofun, nofun⟩
    receiver := by
      rw [h.receiver]
      exact ⟨⟨0, hslots, hfound.recvPtr⟩, nofun, nofun⟩
    apart := .inl (by rw [h.sender]; rfl)
    marked := by rw [hcount, h.sent, h.received, h.sender]; rfl
    counted := by rw [hfound.curmsgs, h.sent, h.received, h.sender, h.receiver]; rfl }

end Opening

/-- Without room for a message both calls end at their first check. -/
structure Refusing (mem : Memory) (mq : Mq) (s : Parties) : Prop where
  mem : s.mem = mem
  mq : s.mq = mq
  sender : s.sender = .idle ∨ ∃ msg, s.sender = .checkFull msg
  receiver : s.receiver = .idle ∨ s.receiver = .semWait ∨ s.receiver = .checkEmpty
  sent : s.sent = []
  received : s.received = []

theorem partyStep_refusing {act : PartyAct} (hmaxmsg : mq.mqAttr.mqMaxmsg ≤ 0)
    (hcurmsgs : mq.mqAttr.mqCurmsgs = 0) (hs : Refusing mem mq s)
    (hstep : partyStep s act = some t) : Refusing mem mq t := by
  cases act with
  | send msg =>
    simp only [partyStep] at hstep
    split at hstep
    · cases hstep
      exact { hs with sender := .inr ⟨msg, rfl⟩ }
    · cases hstep
  | receive =>
    simp only [partyStep] at hstep
    split at hstep
    · cases hstep
      refine { hs with receiver := ?_ }
      dsimp only
      split
      · exact .inr (.inl rfl)
      · exact .inr (.inr rfl)
    · cases hstep
  | sender =>
    simp only [partyStep, senderStep] at hstep
    rcases hs.sender with hidle | ⟨msg, hcheck⟩
    · rw [hidle] at hstep
      cases hstep
    · rw [hcheck, hs.mq] at hstep
      dsimp only at hstep
      rw [if_pos (hmaxmsg.trans hcurmsgs.ge)] at hstep
      cases hstep
      exact { hs with mq := rfl, sender := .inl rfl }
  | receiver =>
    simp only [partyStep, receiverStep] at hstep
    rcases hs.receiver with hidle | hwait | hcheck
    · rw [hidle] at hstep
      cases hstep
    · rw [hwait] at hstep
      dsimp only at hstep
      split at hstep
      · cases hstep
      · cases hstep
        exact { hs with receiver := .inr (.inr rfl) }
    · rw [hcheck, hs.mq] at hstep
      dsimp only at hstep
      rw [if_pos hcurmsgs] at hstep
      cases hstep
      exact { hs with mq := rfl, receiver := .inl rfl }

/-- With both parties between two calls the counter, the marked slots and the
messages on the way agree, however the statements of the calls were interleaved. -/
theorem curmsgs_counts_messages {attr : MqAttr} {start : Parties} (hstart : start.Initial attr)
    (hmsgsize : 0 ≤ attr.mqMsgsize) (hproduct : attr.mqMaxmsg * attr.mqMsgsize < 2 ^ 31)
    (hrun : Reaches partyStep Alternates start s) (hsender : s.sender = .idle)
    (hreceiver : s.receiver = .idle) :
    s.mq.mqAttr.mqCurmsgs = s.usedSlots ∧
      (s.usedSlots : Int) = s.sent.length - s.received.length := by
  by_cases hmaxmsg : 1 ≤ attr.mqMaxmsg
  · have hs := hrun.invariant _ (hstart.consistent hmaxmsg hmsgsize hproduct)
      fun _ _ _ hs hok hstep => partyStep_consistent hs hok hstep
    have hmarked := hs.marked
    have hcounted := hs.counted
    rw [hsender] at hmarked hcounted
    rw [hreceiver] at hcounted
    rw [hs.layout.usedSlots]
    simp only [SendPc.marked, SendPc.counted, RecvPc.discounted] at hmarked hcounted
    omega
  · have hfound := hstart.found
    have hle : start.mq.mqAttr.mqMaxmsg ≤ 0 := by
      rw [hfound.maxmsg]
      omega
    have hs := hrun.invariant (Refusing start.mem start.mq)
      ⟨rfl, rfl, .inl hstart.sender, .inl hstart.receiver, hstart.sent, hstart.received⟩
      fun _ _ _ hs _ hstep => partyStep_refusing hle hfound.curmsgs hs hstep
    have hnone : s.usedSlots = 0 := by
      unfold Parties.usedSlots Parties.used
      rw [hs.mem, hs.mq]
      apply Nat.count_of_forall_not
      intro j hj
      rw [show load32 start.mem _ = 0 from hfound.used hj]
      exact zero_ne_one
    rw [hs.mq, hfound.curmsgs, hnone, hs.sent, hs.received]
    exact ⟨rfl, rfl⟩

def MqState.parties (o : MqState) : Parties where
  mem := o.mem
  mq := o.mq
  sem := o.kernel.sem o.mq.objects.sem
  sender := .idle
  receiver := .idle
  sent := []
  received := []

theorem Opened.parties {attr : MqAttr} {o : MqState} (hopen : Opened attr o)
    (hbuffer : 0 < o.mq.mqPbufSize) : o.parties.Initial attr :=
  ⟨⟨o, hopen, rfl, rfl, rfl⟩, hbuffer, rfl, rfl, rfl, rfl⟩

theorem smallQueue_parties {o : MqState} (hopen : smallQueue = .ok o) :
    o.parties.Initial ⟨0, 2, 4, 0⟩ := by
  have hsizes : smallQueue.toOption.map (fun s =>
      (s.mq.mqPbufSize, s.mq.mqPbuf + s.mq.mqPbufSize)) = some (24, 0x20000028) := by
    decide +kernel
  rw [hopen] at hsizes
  obtain ⟨hsize, hend⟩ := Prod.mk.inj (Option.some.inj hsizes)
  refine Opened.parties ⟨⟨_, _, _, _, _, _, _, hopen⟩, hend.trans_lt (by decide)⟩ ?_
  exact (Nat.zero_lt_succ 23).trans_eq hsize.symm

/-- The receiver takes the first message while the second is being sent; the
sender loads `mq_curmsgs` after the receiver has stored it. -/
def overlapping : List PartyAct :=
  PartyAct.send [1, 2] :: List.replicate 10 PartyAct.sender ++
    PartyAct.send [3] :: List.replicate 6 PartyAct.sender ++
    PartyAct.receive :: List.replicate 8 PartyAct.receiver ++
    List.replicate 3 PartyAct.sender ++ [PartyAct.receiver, PartyAct.sender]

theorem overlapping_counts_messages :
    ∃ o s, smallQueue = .ok o ∧
      runInputs partyStep Alternates overlapping o.parties = some s ∧
      s.sender = .idle ∧ s.receiver = .idle ∧ s.sent = [[1, 2], [3]] ∧ s.received = [[1, 2]] ∧
      s.mq.mqAttr.mqCurmsgs = s.usedSlots ∧
      (s.usedSlots : Int) = s.sent.length - s.received.length := by
  have hfacts : (smallQueue.toOption.bind fun o =>
      runInputs partyStep Alternates overlapping o.parties).map
        (fun s => (s.sender, s.receiver, s.sent, s.received)) =
      some (.idle, .idle, [[1, 2], [3]], [[1, 2]]) := by decide +kernel
  obtain ⟨s, hs, hends⟩ := Option.map_eq_some_iff.mp hfacts
  obtain ⟨o, ho, hrun⟩ := Option.bind_eq_some_iff.mp hs
  have hopen := eq_ok_of_toOption ho
  simp only [Prod.mk.injEq] at hends
  obtain ⟨hsender, hreceiver, hsent, hreceived⟩ := hends
  exact ⟨o, s, hopen, hrun, hsender, hreceiver, hsent, hreceived,
    curmsgs_counts_messages (smallQueue_parties hopen) (by decide) (by decide)
      (.of_runInputs hrun) hsender hreceiver⟩

/-- The sender of the second message has loaded the counter when the receiver
takes the first one. -/
def lostUpdate : List PartyAct :=
  PartyAct.send [1] :: List.replicate 10 PartyAct.sender ++
    PartyAct.send [2] :: List.replicate 7 PartyAct.sender ++
    PartyAct.receive :: List.replicate 9 PartyAct.receiver ++ List.replicate 3 PartyAct.sender

/-- `mq_curmsgs` stays at two with one message in the queue. -/
theorem lostUpdate_miscounts :
    ∃ attr start s, start.Initial attr ∧ 0 ≤ attr.mqMsgsize ∧
      attr.mqMaxmsg * attr.mqMsgsize < 2 ^ 31 ∧ Reaches partyStep anyStep start s ∧
      s.sender = .idle ∧ s.receiver = .idle ∧ s.mq.mqAttr.mqCurmsgs = 2 ∧ s.usedSlots = 1 ∧
      s.sent.length - s.received.length = 1 := by
  have hfacts : (smallQueue.toOption.bind fun o =>
      runInputs partyStep anyStep lostUpdate o.parties).map
        (fun s => (s.sender, s.receiver, s.mq.mqAttr.mqCurmsgs, s.usedSlots,
          s.sent.length - s.received.length)) =
      some (.idle, .idle, 2, 1, 1) := by decide +kernel
  obtain ⟨s, hs, hends⟩ := Option.map_eq_some_iff.mp hfacts
  obtain ⟨o, ho, hrun⟩ := Option.bind_eq_some_iff.mp hs
  have hopen := eq_ok_of_toOption ho
  simp only [Prod.mk.injEq] at hends
  exact ⟨_, _, s, smallQueue_parties hopen, by decide, by decide, .of_runInputs hrun, hends⟩

end PosixRtos.Mqueue
