import PosixRtos.Mqueue.Fifo
import PosixRtos.Kernel.Schedule

/-! Whole calls of `mq_send` and `mq_receive`, one after the other, on a queue
that `mq_open` has returned: the queue is a bounded list of messages. -/
namespace PosixRtos.Mqueue

open PosixRtos.Kernel PosixRtos.Library.ByteMemory PosixRtos.Library.RingBuffer
  PosixRtos.Library.Rings PosixRtos.Library.Runs IntrusiveList

variable {mem : Memory} {mq : Mq} {maxmsg msgsize : Nat} {q : List Message} {msg : Message}

/-- Between calls nobody holds a mutex of the queue or waits for one, and the
semaphore of a blocking queue counts the messages. -/
structure Refines (s : MqState) (maxmsg msgsize : Nat) (q : List Message) : Prop where
  stores : Stores s.mem s.mq maxmsg msgsize q
  free : ∀ m ∈ [s.mq.objects.rMutex, s.mq.objects.wMutex],
    s.kernel.ownThread m = none ∧ s.kernel.headEntry (.mutexWait m) = none
  units : s.mq.blocking = true →
    s.kernel.sem s.mq.objects.sem = ⟨maxmsg, q.length⟩ ∧ maxmsg ≤ semValueMax ∧
      s.kernel.headEntry (.semWait s.mq.objects.sem) = none

variable {k : State} {m : Nat}

/-- Taking a free mutex changes its owner only; giving it back restores it. -/
theorem lockNow_unlock (hfree : k.ownThread m = none) (hquiet : k.headEntry (.mutexWait m) = none) :
    ∃ own, lockNow k m = some { k with ownThread := own } ∧
      ∀ sem, pthreadMutexUnlock { k with ownThread := own, sem := sem } m =
        some ({ k with sem := sem }, 0) := by
  rcases Option.eq_none_or_eq_some k.currentThread with hcur | ⟨t, hcur⟩
  · refine ⟨k.ownThread, ?_, fun sem => ?_⟩
    · unfold lockNow rawPthreadMutexLock
      split
      · rfl
      · next t ht => simp [hcur] at ht
    · unfold pthreadMutexUnlock
      split
      · rfl
      · next t ht => simp [hcur] at ht
  · refine ⟨Function.update k.ownThread m (some t), ?_, fun sem => ?_⟩
    · unfold lockNow rawPthreadMutexLock
      split
      · next hnone => simp [hcur] at hnone
      · next t' ht' =>
        rw [hcur] at ht'
        cases ht'
        rw [hfree]
        rfl
    · have hback :
          Function.update (Function.update k.ownThread m (some t)) m none = k.ownThread := by
        rw [Function.update_idem, ← hfree, Function.update_eq_self]
      have hwake : ({ k with sem := sem } : State).wakeFirst (.mutexWait m) =
          some { k with sem := sem } := by
        unfold State.wakeFirst
        rw [show ({ k with sem := sem } : State).headEntry (.mutexWait m) = none from hquiet]
      unfold pthreadMutexUnlock
      split
      · next hnone => simp [hcur] at hnone
      · next t' ht' =>
        obtain rfl : t' = t := by simpa [hcur] using ht'.symm
        simp only [Function.update_self, if_true, hback]
        rw [hwake]
        rfl

theorem semPost_idle {sem max n : Nat} (hsem : k.sem sem = ⟨max, n⟩) (hn : n < max)
    (hmax : max ≤ semValueMax) (hquiet : k.headEntry (.semWait sem) = none) :
    semPost k sem = some ({ k with sem := Function.update k.sem sem ⟨max, n + 1⟩ }, 0) := by
  have hwake : (k.setSemValue sem (n + 1)).wakeFirst (.semWait sem) =
      some (k.setSemValue sem (n + 1)) := by
    unfold State.wakeFirst
    rw [show (k.setSemValue sem (n + 1)).headEntry (.semWait sem) = none from hquiet]
  unfold semPost
  simp only [hsem]
  rw [if_neg (by omega), if_pos hn, hwake]
  simp [State.setSemValue, hsem]

theorem semWaitNow_idle {sem max n : Nat} (hsem : k.sem sem = ⟨max, n + 1⟩) :
    semWaitNow k sem = some { k with sem := Function.update k.sem sem ⟨max, n⟩ } := by
  simp [semWaitNow, rawSemWait, hsem, State.setSemValue]

theorem mqSend_eq {s : MqState} {own : Nat → Option Tid} (sem : Nat → Sem)
    (hlock : lockNow s.kernel s.mq.objects.wMutex = some { s.kernel with ownThread := own })
    (hpost : (if (mqEnqueue s.mem s.mq msg).2.2 = 0 ∧ (mqEnqueue s.mem s.mq msg).2.1.blocking
      then (semPost { s.kernel with ownThread := own }
        (mqEnqueue s.mem s.mq msg).2.1.objects.sem).map Prod.fst
      else some { s.kernel with ownThread := own }) =
        some { s.kernel with ownThread := own, sem := sem })
    (hunlock : pthreadMutexUnlock { s.kernel with ownThread := own, sem := sem }
      s.mq.objects.wMutex = some ({ s.kernel with sem := sem }, 0)) :
    mqSend s msg = some (⟨{ s.kernel with sem := sem }, (mqEnqueue s.mem s.mq msg).1,
      (mqEnqueue s.mem s.mq msg).2.1⟩, (mqEnqueue s.mem s.mq msg).2.2) := by
  unfold mqSend
  rw [hlock]
  dsimp only [Option.bind_eq_bind, Option.bind_some]
  split
  next hdone =>
    rw [if_pos hdone] at hpost
    rw [hpost]
    dsimp only [Option.bind_some]
    rw [hunlock]
    rfl
  next hdone =>
    rw [if_neg hdone] at hpost
    rw [Option.some.inj hpost, hunlock]
    rfl

theorem einval_ne_zero : -EINVAL ≠ 0 := by decide

/-- The part of `Refines` that is about the kernel, for a semaphore with `count` of
`max` units. -/
structure Ready (s : MqState) (max count : Nat) : Prop where
  free : ∀ m ∈ [s.mq.objects.rMutex, s.mq.objects.wMutex],
    s.kernel.ownThread m = none ∧ s.kernel.headEntry (.mutexWait m) = none
  units : s.mq.blocking = true →
    s.kernel.sem s.mq.objects.sem = ⟨max, count⟩ ∧ max ≤ semValueMax ∧
      s.kernel.headEntry (.semWait s.mq.objects.sem) = none

theorem mqEnqueue_sameQueue (mem : Memory) (mq : Mq) (msg : Message) :
    SameQueue mq (mqEnqueue mem mq msg).2.1 := by
  unfold mqEnqueue
  split
  · exact ⟨rfl, rfl⟩
  split
  · exact ⟨rfl, rfl⟩
  dsimp only
  split
  · exact ⟨rfl, rfl⟩
  · exact ⟨rfl, rfl⟩

/-- A call that nobody is in the way of returns, with one unit more if it has sent. -/
theorem mqSend_ready {s : MqState} {max count : Nat} (h : Ready s max count) (msg : Message)
    (hroom : (mqEnqueue s.mem s.mq msg).2.2 = 0 → count < max) :
    ∃ s', mqSend s msg = some (s', (mqEnqueue s.mem s.mq msg).2.2) ∧
      s'.mem = (mqEnqueue s.mem s.mq msg).1 ∧ s'.mq = (mqEnqueue s.mem s.mq msg).2.1 ∧
      Ready s' max (if (mqEnqueue s.mem s.mq msg).2.2 = 0 then count + 1 else count) ∧
      ((mqEnqueue s.mem s.mq msg).2.2 ≠ 0 → s' = s) := by
  obtain ⟨hfree, hquiet⟩ := h.free s.mq.objects.wMutex (by simp)
  obtain ⟨own, hlock, hunlock⟩ := lockNow_unlock hfree hquiet
  have hsame := mqEnqueue_sameQueue s.mem s.mq msg
  by_cases hret : (mqEnqueue s.mem s.mq msg).2.2 = 0
  · rw [if_pos hret]
    cases hblock : s.mq.blocking with
    | false =>
      have hsend := mqSend_eq s.kernel.sem hlock
        (by rw [hsame.blocking, hblock]; simp) (hunlock _)
      refine ⟨_, hsend, rfl, rfl, ⟨?_, ?_⟩, fun hne => absurd hret hne⟩
      · rw [hsame.objects]
        exact h.free
      · rw [hsame.blocking, hblock]
        exact nofun
    | true =>
      obtain ⟨hsem, hmax, hidle⟩ := h.units hblock
      have hpost := semPost_idle (k := { s.kernel with ownThread := own }) hsem (hroom hret) hmax
        hidle
      have hsend := mqSend_eq
        (Function.update s.kernel.sem s.mq.objects.sem ⟨max, count + 1⟩) hlock
        (by rw [hsame.blocking, hblock, hret, hsame.objects, if_pos ⟨rfl, rfl⟩, hpost]; rfl)
        (hunlock _)
      refine ⟨_, hsend, rfl, rfl, ⟨?_, ?_⟩, fun hne => absurd hret hne⟩
      · rw [hsame.objects]
        exact h.free
      · rw [hsame.objects]
        intro _
        exact ⟨Function.update_self _ _ _, hmax, hidle⟩
  · obtain ⟨hmem, hmq⟩ := mqEnqueue_refused hret
    have hsend := mqSend_eq s.kernel.sem hlock (by rw [if_neg fun hdone => hret hdone.1])
      (hunlock _)
    rw [hmem, hmq] at hsend
    rw [if_neg hret]
    exact ⟨s, hsend, hmem.symm, hmq.symm, h, fun _ => rfl⟩

theorem Refines.ready {s : MqState} (hs : Refines s maxmsg msgsize q) :
    Ready s maxmsg q.length := ⟨hs.free, hs.units⟩

theorem mqSend_spec {s : MqState} (hs : Refines s maxmsg msgsize q) (msg : Message) :
    ∃ s', mqSend s msg = some (s', (fifoSend maxmsg msgsize q msg).2) ∧
      Refines s' maxmsg msgsize (fifoSend maxmsg msgsize q msg).1 ∧
      ((fifoSend maxmsg msgsize q msg).2 ≠ 0 → s' = s) ∧ s'.mq.blocking = s.mq.blocking := by
  obtain ⟨hstores, hret, hsame⟩ := mqEnqueue_spec hs.stores msg
  have hlength : (if (fifoSend maxmsg msgsize q msg).2 = 0 then q.length + 1 else q.length) =
        (fifoSend maxmsg msgsize q msg).1.length ∧
      ((fifoSend maxmsg msgsize q msg).2 = 0 → q.length < maxmsg) := by
    unfold fifoSend
    split
    next hfits => exact ⟨by simp, fun _ => hfits.2⟩
    next => exact ⟨if_neg einval_ne_zero, fun hzero => absurd hzero einval_ne_zero⟩
  obtain ⟨s', hsend, hmem, hmq, hready, hrefused⟩ := mqSend_ready hs.ready msg (hret ▸ hlength.2)
  rw [hret] at hsend hready hrefused
  rw [hlength.1] at hready
  refine ⟨s', hsend, ⟨?_, hready.free, hready.units⟩, hrefused, ?_⟩
  · rw [hmem, hmq]
    exact hstores
  · rw [hmq]
    exact hsame.blocking

theorem mqReceive_spec {s : MqState} (hs : Refines s maxmsg msgsize q)
    (hready : s.mq.blocking = true → q ≠ []) :
    ∃ s', mqReceive s = some (s', (fifoReceive q).2.map (fun msg => (msg.length, msg))) ∧
      Refines s' maxmsg msgsize (fifoReceive q).1 ∧ s'.mq.blocking = s.mq.blocking := by
  obtain ⟨hfree, hquiet⟩ := hs.free s.mq.objects.rMutex (by simp)
  obtain ⟨own, hlock, hunlock⟩ := lockNow_unlock hfree hquiet
  obtain ⟨hstores, hret, hsame⟩ := mqDequeue_spec hs.stores
  unfold mqReceive
  rw [hlock]
  cases hblock : s.mq.blocking with
  | false =>
    refine ⟨⟨s.kernel, (mqDequeue s.mem s.mq).1, (mqDequeue s.mem s.mq).2.1⟩, ?_,
      ⟨hstores, ?_, ?_⟩, by rw [hsame.blocking, hblock]⟩
    · simp only [Option.bind_eq_bind, Option.bind_some, hret, Bool.false_eq_true, if_false]
      rw [hunlock s.kernel.sem]
      rfl
    · rw [hsame.objects]
      exact hs.free
    · rw [hsame.blocking, hblock]
      exact nofun
  | true =>
    obtain ⟨hsem, hmax, hidle⟩ := hs.units hblock
    obtain ⟨msg, rest, rfl⟩ := List.exists_cons_of_ne_nil (hready hblock)
    have hwait := semWaitNow_idle (k := { s.kernel with ownThread := own }) hsem
    let sem := Function.update s.kernel.sem s.mq.objects.sem ⟨maxmsg, rest.length⟩
    refine ⟨⟨{ s.kernel with sem := sem }, (mqDequeue s.mem s.mq).1, (mqDequeue s.mem s.mq).2.1⟩,
      ?_, ⟨hstores, ?_, ?_⟩, by rw [hsame.blocking, hblock]⟩
    · simp only [Option.bind_eq_bind, Option.bind_some, hret, if_true]
      rw [hwait]
      simp only [Option.bind_some]
      rw [hunlock]
      rfl
    · rw [hsame.objects]
      exact hs.free
    · rw [hsame.objects]
      intro _
      exact ⟨Function.update_self _ _ _, hmax, hidle⟩

/-! A new queue. -/

theorem slot_in_buffer {size : Nat} (base : Nat) (hsize : size = (sizeofMqMsg + msgsize) * maxmsg)
    {j : Nat} (hj : j < maxmsg) :
    slotAddr base msgsize j + (sizeofMqMsg + msgsize) ≤ base + size := by
  rw [← slotAddr_succ, hsize]
  exact slotAddr_mono base msgsize hj

/-- In a cleared buffer every slot is free. -/
theorem used_clear {base size : Nat} (hsize : size = (sizeofMqMsg + msgsize) * maxmsg)
    {j : Nat} (hj : j < maxmsg) :
    load32 (write mem base (List.replicate size 0)) (slotAddr base msgsize j + 4) = 0 := by
  have hin := slot_in_buffer base hsize hj
  unfold sizeofMqMsg at hin
  apply load32_clear
  · unfold slotAddr
    omega
  · omega

theorem stores_initialized {attr : MqAttr} {flag : BitVec 32} {buffer size : Nat}
    {objects : MqObjects} (hmaxmsg : attr.mqMaxmsg = maxmsg) (hmsgsize : attr.mqMsgsize = msgsize)
    (hsmall : msgsize < 2 ^ 32) (hpos : 0 < maxmsg)
    (hsize : size = (sizeofMqMsg + msgsize) * maxmsg)
    (hbelow : buffer + size < 2 ^ 32) :
    Stores (write mem buffer (List.replicate size 0))
      (.initialized attr flag buffer size objects) maxmsg msgsize [] where
  maxmsg_eq := hmaxmsg
  msgsize_eq := hmsgsize
  curmsgs_eq := rfl
  small := hsmall
  pbufSize := hsize
  below := hbelow
  sized j hj hused := absurd (used_clear hsize hj) hused
  ring := by
    refine ⟨0, ⟨hpos, Nat.zero_le _, ?_⟩, ?_, ?_⟩
    · intro i hi
      rw [zero_add, Nat.mod_eq_of_lt hi, slotMessage]
      exact if_pos (used_clear hsize hi)
    · rw [slotAddr, Nat.mul_zero]
      rfl
    · rw [List.length_nil, add_zero, Nat.zero_mod, slotAddr, Nat.mul_zero]
      rfl

theorem headEntry_of_ring {h : Head} (hr : k.links.Ring (.head h) []) : k.headEntry h = none := by
  unfold State.headEntry
  rw [(Links.ring_nil_iff.mp hr).1]

/-- `mq_open` has returned the queue of `s`. The buffer is a block of the heap,
which ends below the end of the address space. -/
structure Opened (attr : MqAttr) (s : MqState) : Prop where
  returned : ∃ k mem name flag mode buffer objects,
    mqOpen k mem name flag mode attr buffer objects = .ok s
  below : s.mq.mqPbuf + s.mq.mqPbufSize < 2 ^ 32

/-- What a successful `mq_open` has done. -/
theorem mqOpen_ok {name : Bool} {flag mode : BitVec 32} {attr : MqAttr} {buffer : Option Nat}
    {objects : Option MqObjects} {s : MqState}
    (hopen : mqOpen k mem name flag mode attr buffer objects = .ok s) :
    attr.product ≤ mqMsgSizeMax * mqMsgNumMax ∧
      ∃ p o k₁, buffer = some p ∧ objects = some o ∧
        s.mq = .initialized attr flag p
          ((sizeofMqMsg + sizeT attr.mqMsgsize) * sizeT attr.mqMaxmsg % 2 ^ 32) o ∧
        s.mem = write mem p (List.replicate s.mq.mqPbufSize 0) ∧
        s.kernel = pthreadMutexInit (pthreadMutexInit k₁ o.rMutex) o.wMutex ∧
        (s.mq.blocking = true → semInit k o.sem (sizeT attr.mqMaxmsg) = (k₁, 0)) := by
  unfold mqOpen at hopen
  dsimp only at hopen
  -- the checks of the flags and of the product
  iterate 3
    split at hopen
    · cases hopen
  next hproduct =>
  refine ⟨not_lt.mp hproduct, ?_⟩
  rcases buffer with - | buffer
  · cases hopen
  rcases objects with - | objects
  · cases hopen
  dsimp only at hopen
  generalize hinit : (if (Mq.initialized attr flag buffer _ objects).blocking then
    semInit k objects.sem (sizeT attr.mqMaxmsg) else (k, 0)) = init at hopen
  obtain ⟨k₁, ret⟩ := init
  dsimp only at hopen
  split at hopen
  · cases hopen
  next hret =>
  cases hopen
  refine ⟨buffer, objects, k₁, rfl, rfl, rfl, rfl, rfl, fun hblock => ?_⟩
  rwa [if_pos hblock, not_not.mp hret] at hinit

/-- Where the product does not wrap around, `mq_open` bounds it. -/
theorem Opened.product_le {attr : MqAttr} {s : MqState} (hopen : Opened attr s)
    (hlow : 0 ≤ attr.mqMaxmsg * attr.mqMsgsize) (hhigh : attr.mqMaxmsg * attr.mqMsgsize < 2 ^ 31) :
    attr.mqMaxmsg * attr.mqMsgsize ≤ 512 := by
  obtain ⟨⟨k, mem, name, flag, mode, buffer, objects, hopen⟩, -⟩ := hopen
  have hproduct := (mqOpen_ok hopen).1
  rwa [MqAttr.product_eq (by omega) hhigh] at hproduct

/-- Positive attributes that meet the limit are small. -/
theorem MqAttr.small {attr : MqAttr} (hmaxmsg : 1 ≤ attr.mqMaxmsg) (hmsgsize : 1 ≤ attr.mqMsgsize)
    (hproduct : attr.mqMaxmsg * attr.mqMsgsize ≤ 512) :
    attr.mqMaxmsg ≤ 512 ∧ attr.mqMsgsize ≤ 512 := by
  constructor
  · nlinarith
  · nlinarith

/-- Nobody holds the mutex or waits for it. -/
def FreeMutex (k : State) (m : Nat) : Prop :=
  k.ownThread m = none ∧ k.links.Ring (.head (.mutexWait m)) []

theorem freeMutex_init (k : State) (m : Nat) : FreeMutex (pthreadMutexInit k m) m :=
  ⟨Function.update_self _ _ _, ring_listInit _ _⟩

theorem FreeMutex.init (h : FreeMutex k m) (m' : Nat) : FreeMutex (pthreadMutexInit k m') m := by
  refine ⟨?_, ring_listInit_of_ring _ h.2⟩
  by_cases hm : m = m'
  · subst hm
    exact Function.update_self _ _ _
  · exact (Function.update_of_ne hm _ _).trans h.1

theorem semInit_ok {sem value : Nat} {k₁ : State} (h : semInit k sem value = (k₁, 0)) :
    value ≤ semValueMax ∧ k₁.sem sem = ⟨value, 0⟩ ∧ k₁.links.Ring (.head (.semWait sem)) [] := by
  unfold semInit at h
  split at h
  · simp [EINVAL] at h
  next hle =>
  cases h
  exact ⟨not_lt.mp hle, Function.update_self _ _ _, ring_listInit _ _⟩

/-- Nobody uses a queue that has just been opened. -/
theorem ready_of_mqOpen {name : Bool} {flag mode : BitVec 32} {attr : MqAttr}
    {buffer : Option Nat} {objects : Option MqObjects} {s : MqState}
    (hopen : mqOpen k mem name flag mode attr buffer objects = .ok s) :
    Ready s (sizeT attr.mqMaxmsg) 0 := by
  obtain ⟨-, p, o, k₁, -, -, hmq, -, hkernel, hsem⟩ := mqOpen_ok hopen
  have hobjects : s.mq.objects = o := by rw [hmq]; rfl
  refine ⟨?_, ?_⟩
  · intro m hm
    have hfree : FreeMutex s.kernel m := by
      rw [hobjects] at hm
      rw [hkernel]
      simp only [List.mem_cons, List.not_mem_nil, or_false] at hm
      rcases hm with rfl | rfl
      · exact (freeMutex_init _ _).init _
      · exact freeMutex_init _ _
    exact ⟨hfree.1, headEntry_of_ring hfree.2⟩
  · intro hblock
    obtain ⟨hle, hvalue, hring⟩ := semInit_ok (hsem hblock)
    rw [hkernel, hobjects]
    refine ⟨hvalue, hle, headEntry_of_ring ?_⟩
    exact ring_listInit_of_ring _ (ring_listInit_of_ring _ hring)

theorem Opened.refines {attr : MqAttr} {s : MqState} (hopen : Opened attr s)
    (hmaxmsg : 1 ≤ attr.mqMaxmsg) (hmaxle : attr.mqMaxmsg ≤ 512) (hmsgsize : 0 ≤ attr.mqMsgsize)
    (hsizele : attr.mqMsgsize ≤ 512) :
    Refines s attr.mqMaxmsg.toNat attr.mqMsgsize.toNat [] := by
  obtain ⟨⟨k, mem, name, flag, mode, buffer, objects, hopen⟩, hbelow⟩ := hopen
  have hready := ready_of_mqOpen hopen
  obtain ⟨-, buffer, objects, k₁, -, -, hmq, hmem, -⟩ := mqOpen_ok hopen
  have hpos : 0 < attr.mqMaxmsg.toNat := by omega
  have hsmall : attr.mqMsgsize.toNat < 2 ^ 32 := by omega
  have hmaxT : sizeT attr.mqMaxmsg = attr.mqMaxmsg.toNat := by
    unfold sizeT
    omega
  have hsizeT : sizeT attr.mqMsgsize = attr.mqMsgsize.toNat := by
    unfold sizeT
    omega
  have hmaxCast : attr.mqMaxmsg = attr.mqMaxmsg.toNat := by omega
  have hsizeCast : attr.mqMsgsize = attr.mqMsgsize.toNat := by omega
  have hbytes : (sizeofMqMsg + attr.mqMsgsize.toNat) * attr.mqMaxmsg.toNat < 2 ^ 32 := by
    have := Nat.mul_le_mul (by unfold sizeofMqMsg; omega : sizeofMqMsg + attr.mqMsgsize.toNat ≤ 520)
      (by omega : attr.mqMaxmsg.toNat ≤ 512)
    omega
  rw [hmaxT, hsizeT, Nat.mod_eq_of_lt hbytes] at hmq
  rw [hmaxT] at hready
  refine ⟨?_, hready.free, hready.units⟩
  rw [hmq] at hbelow
  rw [hmem, hmq]
  exact stores_initialized hmaxCast hsizeCast hsmall hpos rfl hbelow

/-! Any number of calls. -/

/-- What the rest of the system may do to a queue between two calls: nothing. -/
@[mk_iff]
structure LeavesAlone (s : MqState) (kernel : State) (mem : Memory) : Prop where
  buffer : ∀ x, s.mq.mqPbuf ≤ x → x < s.mq.mqPbuf + s.mq.mqPbufSize → mem x = s.mem x
  mutexes : ∀ m ∈ [s.mq.objects.rMutex, s.mq.objects.wMutex],
    kernel.ownThread m = s.kernel.ownThread m ∧
      kernel.headEntry (.mutexWait m) = s.kernel.headEntry (.mutexWait m)
  sem : kernel.sem s.mq.objects.sem = s.kernel.sem s.mq.objects.sem ∧
    kernel.headEntry (.semWait s.mq.objects.sem) = s.kernel.headEntry (.semWait s.mq.objects.sem)

/-- The slots of a buffer that is left alone. -/
theorem sameSlot_of_buffer {mem' : Memory} {base size : Nat}
    (hsize : size = (sizeofMqMsg + msgsize) * maxmsg)
    (hmem : ∀ x, base ≤ x → x < base + size → mem' x = mem x) {j : Nat} (hj : j < maxmsg) :
    SameSlot mem mem' base msgsize j := by
  intro x hx hx'
  have hin := slot_in_buffer base hsize hj
  exact hmem x (by unfold slotAddr at hx; omega) (by omega)

theorem Sized.congr {mem' : Memory} {base size : Nat} (hs : Sized mem base msgsize maxmsg)
    (hsize : size = (sizeofMqMsg + msgsize) * maxmsg)
    (hmem : ∀ x, base ≤ x → x < base + size → mem' x = mem x) : Sized mem' base msgsize maxmsg := by
  intro j hj
  obtain ⟨hlength, hused⟩ := (sameSlot_of_buffer hsize hmem hj).words
  rw [hlength, hused]
  exact hs j hj

theorem Stores.congr {mem' : Memory} (hs : Stores mem mq maxmsg msgsize q)
    (hmem : ∀ x, mq.mqPbuf ≤ x → x < mq.mqPbuf + mq.mqPbufSize → mem' x = mem x) :
    Stores mem' mq maxmsg msgsize q := by
  obtain ⟨r, hring, hrecv, hsend⟩ := hs.ring
  refine { hs with sized := hs.sized.congr hs.pbufSize hmem,
                   ring := ⟨r, hring.congr ?_, hrecv, hsend⟩ }
  intro j hj
  exact (sameSlot_of_buffer hs.pbufSize hmem hj).slotMessage hs.sized hj

theorem Refines.elsewhere {s : MqState} {kernel : State} {mem : Memory}
    (hs : Refines s maxmsg msgsize q) (h : LeavesAlone s kernel mem) :
    Refines ⟨kernel, mem, s.mq⟩ maxmsg msgsize q where
  stores := hs.stores.congr h.buffer
  free m hm := by
    rw [(h.mutexes m hm).1, (h.mutexes m hm).2]
    exact hs.free m hm
  units hblock := by
    rw [h.sem.1, h.sem.2]
    exact hs.units hblock

instance (s : MqState) (kernel : State) (mem : Memory) : Decidable (LeavesAlone s kernel mem) :=
  decidable_of_iff _ (leavesAlone_iff s kernel mem).symm

/-- A queue with the messages it has accepted and delivered so far. -/
structure Session where
  s : MqState
  accepted : List Message
  delivered : List Message

inductive Call where
  | send (msg : Message)
  | receive
  | elsewhere (kernel : State) (mem : Memory)

/-- A receiver of a blocking queue comes when there is a message. -/
def Call.Allowed (session : Session) : Call → Prop
  | .send _ => True
  | .receive => session.s.mq.blocking = true → session.s.mq.mqAttr.mqCurmsgs ≠ 0
  | .elsewhere kernel mem => LeavesAlone session.s kernel mem

instance (session : Session) : (call : Call) → Decidable (call.Allowed session)
  | .send _ => inferInstanceAs (Decidable True)
  | .receive => inferInstanceAs (Decidable (_ → _))
  | .elsewhere kernel mem => inferInstanceAs (Decidable (LeavesAlone session.s kernel mem))

def Session.call (session : Session) : Call → Option Session
  | .send msg => (mqSend session.s msg).map fun (s, ret) =>
      { session with s := s, accepted := session.accepted ++ if ret = 0 then [msg] else [] }
  | .receive => (mqReceive session.s).map fun (s, received) =>
      { session with s := s, delivered := session.delivered ++ (received.map Prod.snd).toList }
  | .elsewhere kernel mem =>
      some { session with s := { session.s with kernel := kernel, mem := mem } }

/-- The calls answer as those of a bounded queue that holds `q`. -/
structure BoundedFifo (s : MqState) (maxmsg msgsize : Nat) (q : List Message) : Prop where
  stores : Stores s.mem s.mq maxmsg msgsize q
  send : ∀ msg, ∃ s' ret, mqSend s msg = some (s', ret) ∧
    (ret = 0 ↔ msg.length ≤ msgsize ∧ q.length < maxmsg) ∧ (ret ≠ 0 → s' = s)
  receive : (s.mq.blocking = true → q ≠ []) →
    ∃ s', mqReceive s = some (s', q.head?.map fun msg => (msg.length, msg))

theorem Refines.boundedFifo {s : MqState} (hs : Refines s maxmsg msgsize q) :
    BoundedFifo s maxmsg msgsize q where
  stores := hs.stores
  send msg := by
    obtain ⟨s', hsend, -, hsame, -⟩ := mqSend_spec hs msg
    refine ⟨s', _, hsend, ?_, hsame⟩
    unfold fifoSend
    split
    next hfits => exact ⟨fun _ => hfits, fun _ => rfl⟩
    next hfits => exact ⟨fun h => absurd h einval_ne_zero, fun h => absurd h hfits⟩
  receive hready := by
    obtain ⟨s', hreceive, -⟩ := mqReceive_spec hs hready
    exact ⟨s', hreceive⟩

/-- Every message that was accepted is delivered or still in the queue, in order. -/
theorem Session.call_refines {session session' : Session} {call : Call}
    (hs : Refines session.s maxmsg msgsize q) (hq : session.accepted = session.delivered ++ q)
    (hok : call.Allowed session) (hstep : session.call call = some session') :
    ∃ q', Refines session'.s maxmsg msgsize q' ∧
      session'.accepted = session'.delivered ++ q' := by
  cases call with
  | send msg =>
    obtain ⟨s', hsend, hs', -⟩ := mqSend_spec hs msg
    simp only [Session.call, hsend, Option.map_some, Option.some.injEq] at hstep
    subst hstep
    refine ⟨_, hs', ?_⟩
    unfold fifoSend
    split
    · simp [hq]
    · simpa [EINVAL] using hq
  | receive =>
    have hready : session.s.mq.blocking = true → q ≠ [] := by
      rintro hblock rfl
      exact hok hblock hs.stores.curmsgs_eq
    obtain ⟨s', hreceive, hs', -⟩ := mqReceive_spec hs hready
    simp only [Session.call, hreceive, Option.map_some, Option.some.injEq] at hstep
    subst hstep
    refine ⟨_, hs', ?_⟩
    rw [hq]
    cases q <;> simp [fifoReceive]
  | elsewhere kernel mem =>
    simp only [Session.call, Option.some.injEq] at hstep
    subst hstep
    exact ⟨q, hs.elsewhere hok, hq⟩

theorem queue_is_bounded_fifo {attr : MqAttr} {s : MqState} {session : Session}
    (hopen : Opened attr s) (hmaxmsg : 1 ≤ attr.mqMaxmsg) (hmsgsize : 1 ≤ attr.mqMsgsize)
    (hproduct : attr.mqMaxmsg * attr.mqMsgsize ≤ mqMsgSizeMax * mqMsgNumMax)
    (hrun : Reaches Session.call (fun session call => call.Allowed session) ⟨s, [], []⟩ session) :
    ∃ q, session.accepted = session.delivered ++ q ∧
      BoundedFifo session.s attr.mqMaxmsg.toNat attr.mqMsgsize.toNat q := by
  obtain ⟨hmaxle, hsizele⟩ := MqAttr.small hmaxmsg hmsgsize hproduct
  obtain ⟨q, hs, hq⟩ := hrun.invariant
    (fun session => ∃ q, Refines session.s attr.mqMaxmsg.toNat attr.mqMsgsize.toNat q ∧
      session.accepted = session.delivered ++ q)
    ⟨[], hopen.refines hmaxmsg hmaxle (by omega) hsizele, rfl⟩
    (fun _ _ _ ⟨_, hs, hq⟩ hok hstep => Session.call_refines hs hq hok hstep)
  exact ⟨q, hq, hs.boundedFifo⟩

/-- A blocking queue of two messages of at most four bytes. -/
def smallQueue : Except Int MqState :=
  mqOpen clearedState (fun _ => 0xff) true O_CREAT O_CREAT ⟨0, 2, 4, 0⟩ (some 0x20000010)
    (some ⟨0, 0, 1⟩)

/-- The third message finds the queue full; the fourth goes round the ring. -/
def sixCalls : List Call :=
  [.send [1, 2], .send [3], .send [4, 5], .receive, .send [6, 7, 8, 9], .receive]

theorem smallQueue_is_bounded_fifo :
    ∃ s session, smallQueue = .ok s ∧
      runInputs Session.call (fun session call => call.Allowed session) sixCalls ⟨s, [], []⟩ =
        some session ∧
      session.accepted = [[1, 2], [3], [6, 7, 8, 9]] ∧ session.delivered = [[1, 2], [3]] ∧
      BoundedFifo session.s 2 4 [[6, 7, 8, 9]] := by
  have hfacts : (smallQueue.toOption.bind fun s =>
      runInputs Session.call (fun session call => call.Allowed session) sixCalls ⟨s, [], []⟩).map
        (fun session => (session.accepted, session.delivered)) =
      some ([[1, 2], [3], [6, 7, 8, 9]], [[1, 2], [3]]) := by decide +kernel
  have hend : smallQueue.toOption.map (fun s => s.mq.mqPbuf + s.mq.mqPbufSize) =
      some 0x20000028 := by decide +kernel
  obtain ⟨session, hsession, hlogs⟩ := Option.map_eq_some_iff.mp hfacts
  obtain ⟨s, hs, hrun⟩ := Option.bind_eq_some_iff.mp hsession
  rw [hs] at hend
  have hopen := eq_ok_of_toOption hs
  rw [Prod.mk.injEq] at hlogs
  obtain ⟨q, hq, hfifo⟩ := queue_is_bounded_fifo
    ⟨⟨_, _, _, _, _, _, _, hopen⟩, (Option.some.inj hend).trans_lt (by decide)⟩ (by decide)
    (by decide) (by decide) (.of_runInputs hrun)
  rw [hlogs.1, hlogs.2] at hq
  obtain rfl : [[6, 7, 8, 9]] = q := by simpa using hq
  exact ⟨s, session, hopen, hrun, hlogs.1, hlogs.2, hfifo⟩

end PosixRtos.Mqueue
