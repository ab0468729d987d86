import PosixRtos.Mqueue.Calls
import PosixRtos.Kernel.SemUsers

/-! Senders and receivers of a blocking queue, interleaved in any way. The blocks
that enqueue and dequeue, `sem_post` and each attempt of `sem_wait` are the
atomic steps. Taking and releasing the two mutexes are steps of the kernel like
any others: the results hold for any number of threads inside the calls, and so
for the one sender and the one receiver that the mutexes let through. -/
namespace PosixRtos.Mqueue

open PosixRtos.Kernel PosixRtos.Library.ByteMemory PosixRtos.Library.RingBuffer
  PosixRtos.Library.Rings PosixRtos.Library.Runs PosixRtos.Library.Counting IntrusiveList

/-- `enqueued` is a sender before its `sem_post`; `waiting` is the loop of
`sem_wait`, and `passed` a receiver after it that has not dequeued. -/
inductive QueuePc where
  | outside
  | enqueued
  | waiting
  | passed
deriving DecidableEq

structure QueueUsers extends MqState where
  pc : Tid → QueuePc

inductive QueueAct where
  | send (msg : Message)
  | post
  | wait
  | retry
  | receive
  | env (op : Op)
  | elsewhere (mem : Memory)
  | dispatch (thread : Tid)

/-- A sender that is refused leaves the call. -/
def QueueUsers.enqueue (s : QueueUsers) (t : Tid) (msg : Message) : QueueUsers :=
  let (mem, mq, ret) := mqEnqueue s.mem s.mq msg
  { s with
    mem := mem
    mq := mq
    pc := Function.update s.pc t (if ret = 0 then .enqueued else .outside) }

def QueueUsers.dequeue (s : QueueUsers) (t : Tid) : QueueUsers :=
  let (mem, mq, _) := mqDequeue s.mem s.mq
  { s with mem := mem, mq := mq, pc := Function.update s.pc t .outside }

def QueueUsers.attempt (s : QueueUsers) (t : Tid) : Option QueueUsers := do
  let (k, ret) ← rawSemWait s.kernel s.mq.objects.sem
  some { s with
    kernel := k
    pc := Function.update s.pc t (if ret = 0 then .passed else .waiting) }

def queueStep (board : Board) (s : QueueUsers) : QueueAct → Option QueueUsers
  | .send msg => do
      let t ← s.kernel.currentThread
      if s.pc t = .outside then some (s.enqueue t msg) else none
  | .post => do
      let t ← s.kernel.currentThread
      if s.pc t = .enqueued then do
        let (k, _) ← semPost s.kernel s.mq.objects.sem
        some { s with kernel := k, pc := Function.update s.pc t .outside }
      else none
  | .wait => do
      let t ← s.kernel.currentThread
      if s.pc t = .outside then s.attempt t else none
  | .retry => do
      let t ← s.kernel.currentThread
      if s.pc t = .waiting then s.attempt t else none
  | .receive => do
      let t ← s.kernel.currentThread
      if s.pc t = .passed then some (s.dequeue t) else none
  | .env op =>
      if op.UsesSem s.mq.objects.sem then none
      else (step board s.kernel op).map fun k => { s with kernel := k }
  | .elsewhere mem =>
      if ∀ x, s.mq.mqPbuf ≤ x → x < s.mq.mqPbuf + s.mq.mqPbufSize → mem x = s.mem x then
        some { s with mem := mem }
      else none
  | .dispatch t => (s.kernel.dispatch t).map fun k => { s with kernel := k }

/-- No thread waits on the objects: their memory is fresh from the heap. -/
def Unused (k : State) (objects : MqObjects) : Prop :=
  ∀ h ∈ [Head.semWait objects.sem, .mutexWait objects.rMutex, .mutexWait objects.wMutex],
    listIsEmpty k.links (.head h) = true

instance (k : State) (objects : MqObjects) : Decidable (Unused k objects) :=
  inferInstanceAs (Decidable (∀ h ∈ _, _))

/-- A blocking queue that `mq_open` has just returned. -/
structure QueueUsers.Initial (board : Board) (attr : MqAttr) (s : QueueUsers) : Prop where
  opened : ∃ k mem name flag mode buffer objects, Reachable board k ∧ Unused k s.mq.objects ∧
    mqOpen k mem name flag mode attr buffer objects = .ok s.toMqState
  below : s.mq.mqPbuf + s.mq.mqPbufSize < 2 ^ 32
  blocking : s.mq.blocking = true
  outside : ∀ t, s.pc t = .outside

def QueueUsers.units (s : QueueUsers) : Nat := (s.kernel.sem s.mq.objects.sem).value

/-- The number of threads at the given place. -/
def QueueUsers.number (s : QueueUsers) (pc : QueuePc) : Nat :=
  Nat.count (fun t => s.pc t = pc) s.kernel.count

structure Balanced (maxmsg msgsize : Nat) (s : QueueUsers) (L : Head → List Tid) : Prop where
  inv : Inv s.kernel L
  current : s.kernel.CurrentRunnable
  initValue : (s.kernel.sem s.mq.objects.sem).initValue = maxmsg
  ceiling : maxmsg ≤ semValueMax
  absent : ∀ t, s.kernel.count ≤ t → s.pc t = .outside
  stored : ∃ q, Stores s.mem s.mq maxmsg msgsize q ∧
    q.length = s.units + s.number .passed + s.number .enqueued

variable {board : Board} {maxmsg msgsize : Nat} {s s' : QueueUsers} {L : Head → List Tid} {t : Tid}
  {place : QueuePc}

/-- The thread `t` goes to `place`, and no thread is created. -/
structure GoesTo (s s' : QueueUsers) (t : Tid) (place : QueuePc) : Prop where
  pc : s'.pc = Function.update s.pc t place
  count : s'.kernel.count = s.kernel.count
  created : t < s.kernel.count

theorem GoesTo.number_enter (hgo : GoesTo s s' t place) (hold : s.pc t ≠ place) :
    s'.number place = s.number place + 1 := by
  unfold QueueUsers.number
  rw [hgo.pc, hgo.count]
  exact count_update_enter hgo.created hold

theorem GoesTo.number_leave (hgo : GoesTo s s' t place) (hold : s.pc t ≠ place) :
    s.number (s.pc t) = s'.number (s.pc t) + 1 := by
  unfold QueueUsers.number
  rw [hgo.pc, hgo.count]
  exact count_update_leave hgo.created rfl hold.symm

theorem GoesTo.number_other (hgo : GoesTo s s' t place) {x : QueuePc} (hold : s.pc t ≠ x)
    (hnew : place ≠ x) : s'.number x = s.number x := by
  unfold QueueUsers.number
  rw [hgo.pc, hgo.count]
  exact count_update_other _ hold hnew

theorem GoesTo.absent (hgo : GoesTo s s' t place) (habsent : ∀ u, s.kernel.count ≤ u →
    s.pc u = .outside) : ∀ u, s'.kernel.count ≤ u → s'.pc u = .outside := by
  intro u hu
  rw [hgo.count] at hu
  rw [hgo.pc, Function.update_of_ne (hgo.created.trans_le hu).ne']
  exact habsent u hu

theorem Stores.length_le {mem : Memory} {mq : Mq} {q : List Message}
    (hs : Stores mem mq maxmsg msgsize q) : q.length ≤ maxmsg := by
  obtain ⟨r, hring, -⟩ := hs.ring
  exact hring.fits

/-! The consequences in one state. -/

theorem Balanced.number_pos (hs : Balanced maxmsg msgsize s L) {place : QueuePc}
    (hplace : place ≠ .outside) (ht : s.pc t = place) : 0 < s.number place := by
  have hlt : t < s.kernel.count := by
    by_contra hge
    rw [hs.absent t (not_lt.mp hge)] at ht
    exact hplace ht.symm
  exact (Nat.zero_le _).trans_lt (Nat.count_strict_mono (p := fun t => s.pc t = place) ht hlt)

/-- For a message that is enqueued and not posted there is room in the count. -/
theorem Balanced.room (hs : Balanced maxmsg msgsize s L) (ht : s.pc t = .enqueued) :
    s.units < maxmsg := by
  obtain ⟨q, hstores, hlength⟩ := hs.stored
  have hle := hstores.length_le
  have hpos := hs.number_pos (by decide) ht
  omega

/-- `sem_post` neither fails nor saturates. -/
theorem Balanced.semPost_counts (hs : Balanced maxmsg msgsize s L) (ht : s.pc t = .enqueued)
    {u : Tid} (hcur : s.kernel.currentThread = some u) :
    ∃ k L', semPost s.kernel s.mq.objects.sem = some (k, 0) ∧
      k.sem s.mq.objects.sem = ⟨maxmsg, s.units + 1⟩ ∧
      Inv k L' ∧ k.CurrentRunnable ∧ k.count = s.kernel.count := by
  have hroom := hs.room ht
  have hceiling := hs.ceiling
  obtain ⟨hi₁, hc₁, hcount₁⟩ := incremented_inv hs.inv hs.current s.mq.objects.sem
  have hcur₁ : (s.kernel.incremented s.mq.objects.sem).currentThread = some u := by
    unfold State.incremented
    split <;> exact hcur
  have hsem₁ : (s.kernel.incremented s.mq.objects.sem).sem s.mq.objects.sem =
      ⟨maxmsg, s.units + 1⟩ := by
    rw [incremented_sem, hs.initValue]
    exact congrArg (Sem.mk maxmsg) (if_pos hroom)
  obtain ⟨k, hwake⟩ := wakeFirst_isSome hi₁ hcur₁ (.semWait s.mq.objects.sem)
  have hcall : semPost s.kernel s.mq.objects.sem = some (k, 0) := by
    unfold semPost
    unfold QueueUsers.units at hroom
    rw [if_neg (by omega)]
    unfold State.incremented at hwake
    dsimp only
    rw [hwake]
    rfl
  obtain ⟨-, rfl⟩ | ⟨v, rest, -, -, -, hp⟩ := wakeFirst_spec hi₁ hwake
  · exact ⟨_, L, hcall, hsem₁, hi₁, hc₁, hcount₁⟩
  · exact ⟨k, _, hcall, by rw [hp.sem, hsem₁], hp.inv, hp.current, hp.count.trans hcount₁⟩

/-- A receiver past `sem_wait` finds a message. -/
theorem Balanced.pending (hs : Balanced maxmsg msgsize s L) (ht : s.pc t = .passed) :
    ∃ msg rest, Stores s.mem s.mq maxmsg msgsize (msg :: rest) := by
  obtain ⟨q, hstores, hlength⟩ := hs.stored
  have hpos := hs.number_pos (by decide) ht
  cases q with
  | nil =>
    rw [List.length_nil] at hlength
    omega
  | cons msg rest => exact ⟨msg, rest, hstores⟩

/-! The steps. -/

theorem Balanced.enqueue (hs : Balanced maxmsg msgsize s L) (hlt : t < s.kernel.count)
    (hpc : s.pc t = .outside) (msg : Message) : Balanced maxmsg msgsize (s.enqueue t msg) L := by
  obtain ⟨q, hstores, hlength⟩ := hs.stored
  obtain ⟨hstores', hret, hsame⟩ := mqEnqueue_spec hstores msg
  have hgo : GoesTo s (s.enqueue t msg) t
      (if (mqEnqueue s.mem s.mq msg).2.2 = 0 then .enqueued else .outside) := ⟨rfl, rfl, hlt⟩
  have hunits : (s.enqueue t msg).units = s.units := by
    change (s.kernel.sem (mqEnqueue s.mem s.mq msg).2.1.objects.sem).value = s.units
    rw [hsame.objects]
    rfl
  refine ⟨hs.inv, hs.current, ?_, hs.ceiling, hgo.absent hs.absent, _, hstores', ?_⟩
  · change (s.kernel.sem (mqEnqueue s.mem s.mq msg).2.1.objects.sem).initValue = maxmsg
    rw [hsame.objects]
    exact hs.initValue
  rw [hret] at hgo
  unfold fifoSend at hgo ⊢
  split
  · next hfits =>
    rw [if_pos hfits, if_pos rfl] at hgo
    rw [hunits, hgo.number_other (by rw [hpc]; decide) (by decide),
      hgo.number_enter (by rw [hpc]; decide), List.length_append, hlength]
    rfl
  · next hfits =>
    rw [if_neg hfits, if_neg einval_ne_zero] at hgo
    rw [hunits, hgo.number_other (by rw [hpc]; decide) (by decide),
      hgo.number_other (by rw [hpc]; decide) (by decide)]
    exact hlength

theorem Balanced.dequeue (hs : Balanced maxmsg msgsize s L) (hlt : t < s.kernel.count)
    (hpc : s.pc t = .passed) : Balanced maxmsg msgsize (s.dequeue t) L := by
  obtain ⟨q, hstores, hlength⟩ := hs.stored
  obtain ⟨hstores', -, hsame⟩ := mqDequeue_spec hstores
  have hgo : GoesTo s (s.dequeue t) t .outside := ⟨rfl, rfl, hlt⟩
  have hunits : (s.dequeue t).units = s.units := by
    change (s.kernel.sem (mqDequeue s.mem s.mq).2.1.objects.sem).value = s.units
    rw [hsame.objects]
    rfl
  refine ⟨hs.inv, hs.current, ?_, hs.ceiling, hgo.absent hs.absent, _, hstores', ?_⟩
  · change (s.kernel.sem (mqDequeue s.mem s.mq).2.1.objects.sem).initValue = maxmsg
    rw [hsame.objects]
    exact hs.initValue
  · have hleave := hgo.number_leave (by rw [hpc]; decide)
    rw [hpc] at hleave
    have hother := hgo.number_other (x := .enqueued) (by rw [hpc]; decide) (by decide)
    change q.tail.length = _
    rw [List.length_tail, hlength, hunits, hother, hleave]
    omega

/-- An attempt takes a unit and counts as a receiver past `sem_wait`, or finds
none and changes no number. -/
theorem Balanced.attempt (hs : Balanced maxmsg msgsize s L) (ht : s.kernel.currentThread = some t)
    (hpc : s.pc t = .outside ∨ s.pc t = .waiting) (hstep : s.attempt t = some s') :
    ∃ L', Balanced maxmsg msgsize s' L' := by
  have hlt := (hs.current t ht).1
  have hpassed : s.pc t ≠ .passed := by rcases hpc with h | h <;> rw [h] <;> decide
  have henqueued : s.pc t ≠ .enqueued := by rcases hpc with h | h <;> rw [h] <;> decide
  obtain ⟨q, hstores, hlength⟩ := hs.stored
  obtain ⟨⟨k, ret⟩, hcall, hstep⟩ := Option.bind_eq_some_iff.mp hstep
  rcases rawSemWait_cases hcall with ⟨hpos, rfl, rfl⟩ | ⟨hzero, rfl, t', ht', hsuspend⟩
  · cases hstep
    let k := s.kernel.setSemValue s.mq.objects.sem (s.units - 1)
    let s' : QueueUsers := { s with kernel := k, pc := Function.update s.pc t .passed }
    have hgo : GoesTo s s' t .passed := ⟨rfl, rfl, hlt⟩
    have hsem : k.sem s.mq.objects.sem =
        ⟨(s.kernel.sem s.mq.objects.sem).initValue, s.units - 1⟩ := Function.update_self ..
    refine ⟨L, setSemValue_inv hs.inv _ _, hs.current,
      (congrArg Sem.initValue hsem).trans hs.initValue, hs.ceiling, hgo.absent hs.absent,
      q, hstores, ?_⟩
    have hunits : s'.units = s.units - 1 := congrArg Sem.value hsem
    change s.units ≠ 0 at hpos
    change q.length = s'.units + s'.number .passed + s'.number .enqueued
    rw [hunits, hgo.number_enter hpassed, hgo.number_other henqueued (by decide), hlength]
    omega
  · rw [ht] at ht'
    cases ht'
    cases hstep
    have hpark := suspendOn_spec hs.inv hlt (Head.isWait_semWait _) hsuspend
    let s' : QueueUsers := { s with kernel := k, pc := Function.update s.pc t .waiting }
    have hgo : GoesTo s s' t .waiting := ⟨rfl, hpark.count, hlt⟩
    have hsem : k.sem s.mq.objects.sem = s.kernel.sem s.mq.objects.sem := by rw [hpark.sem]
    refine ⟨_, hpark.inv, hpark.current, (congrArg Sem.initValue hsem).trans hs.initValue,
      hs.ceiling, hgo.absent hs.absent, q, hstores, ?_⟩
    have hunits : s'.units = s.units := congrArg Sem.value hsem
    change q.length = s'.units + s'.number .passed + s'.number .enqueued
    rw [hunits, hgo.number_other hpassed (by decide), hgo.number_other henqueued (by decide)]
    exact hlength

theorem Balanced.post (hs : Balanced maxmsg msgsize s L)
    (hstep : queueStep board s .post = some s') : ∃ L', Balanced maxmsg msgsize s' L' := by
  obtain ⟨t, ht, hstep⟩ := Option.bind_eq_some_iff.mp hstep
  split at hstep
  swap
  · cases hstep
  next hpc =>
  obtain ⟨q, hstores, hlength⟩ := hs.stored
  obtain ⟨⟨k, ret⟩, hcall, hstep⟩ := Option.bind_eq_some_iff.mp hstep
  obtain ⟨k', L', hcall', hsem, hi', hc', hcount⟩ := hs.semPost_counts hpc ht
  rw [hcall] at hcall'
  cases hcall'
  have hgo : GoesTo s s' t .outside := by
    cases hstep
    exact ⟨rfl, hcount, (hs.current t ht).1⟩
  have hleave := hgo.number_leave (by rw [hpc]; decide)
  rw [hpc] at hleave
  have hpassed := hgo.number_other (x := .passed) (by rw [hpc]; decide) (by decide)
  cases hstep
  refine ⟨L', hi', hc', congrArg Sem.initValue hsem, hs.ceiling, hgo.absent hs.absent,
    q, hstores, ?_⟩
  have hunits : QueueUsers.units { s with kernel := k, pc := Function.update s.pc t .outside } =
      s.units + 1 := congrArg Sem.value hsem
  rw [hunits, hpassed, hlength, hleave]
  omega

/-- A step that leaves the semaphore, the queue and the users alone. -/
theorem Balanced.frame {k : State} {L' : Head → List Tid} (hs : Balanced maxmsg msgsize s L)
    (hi : Inv k L') (hc : k.CurrentRunnable) (hcount : s.kernel.count ≤ k.count)
    (hsem : k.sem s.mq.objects.sem = s.kernel.sem s.mq.objects.sem) :
    Balanced maxmsg msgsize { s with kernel := k } L' := by
  obtain ⟨q, hstores, hlength⟩ := hs.stored
  have hnumber : ∀ place : QueuePc, place ≠ .outside →
      Nat.count (fun u => s.pc u = place) k.count = s.number place := by
    intro place hplace
    apply count_extend hcount
    intro u hu hpc
    rw [hs.absent u hu] at hpc
    exact hplace hpc.symm
  refine ⟨hi, hc, ?_, hs.ceiling, fun u hu => hs.absent u (hcount.trans hu), q, hstores, ?_⟩
  · change (k.sem s.mq.objects.sem).initValue = maxmsg
    rw [hsem]
    exact hs.initValue
  · change q.length = (k.sem s.mq.objects.sem).value +
      Nat.count (fun u => s.pc u = .passed) k.count +
      Nat.count (fun u => s.pc u = .enqueued) k.count
    rw [hsem, hnumber _ (by decide), hnumber _ (by decide)]
    exact hlength

theorem Balanced.step {act : QueueAct} (hs : Balanced maxmsg msgsize s L)
    (hstep : queueStep board s act = some s') : ∃ L', Balanced maxmsg msgsize s' L' := by
  cases act with
  | send msg =>
    obtain ⟨t, ht, hstep⟩ := Option.bind_eq_some_iff.mp hstep
    split at hstep
    · next hpc =>
      rw [← Option.some.inj hstep]
      exact ⟨L, hs.enqueue (hs.current t ht).1 hpc msg⟩
    · cases hstep
  | post => exact hs.post hstep
  | wait =>
    obtain ⟨t, ht, hstep⟩ := Option.bind_eq_some_iff.mp hstep
    split at hstep
    · next hpc => exact hs.attempt ht (.inl hpc) hstep
    · cases hstep
  | retry =>
    obtain ⟨t, ht, hstep⟩ := Option.bind_eq_some_iff.mp hstep
    split at hstep
    · next hpc => exact hs.attempt ht (.inr hpc) hstep
    · cases hstep
  | receive =>
    obtain ⟨t, ht, hstep⟩ := Option.bind_eq_some_iff.mp hstep
    split at hstep
    · next hpc =>
      rw [← Option.some.inj hstep]
      exact ⟨L, hs.dequeue (hs.current t ht).1 hpc⟩
    · cases hstep
  | env op =>
    rw [queueStep] at hstep
    split at hstep
    · cases hstep
    next hfree =>
    obtain ⟨k, hk, rfl⟩ := Option.map_eq_some_iff.mp hstep
    obtain ⟨L', hframe⟩ := step_frame hs.inv hs.current hk
    exact ⟨L', hs.frame hframe.inv hframe.current hframe.count (hframe.sem _ hfree).1⟩
  | elsewhere mem =>
    rw [queueStep] at hstep
    split at hstep
    · next hmem =>
      cases hstep
      obtain ⟨q, hstores, hlength⟩ := hs.stored
      exact ⟨L, { hs with stored := ⟨q, hstores.congr hmem, hlength⟩ }⟩
    · cases hstep
  | dispatch t =>
    obtain ⟨k, hk, rfl⟩ := Option.map_eq_some_iff.mp hstep
    obtain ⟨rfl, hi, hc⟩ := dispatch_inv hs.inv hk
    exact ⟨L, hs.frame hi hc le_rfl rfl⟩

/-! The start. -/

theorem pthreadMutexInit_same {k : State} (hi : Inv k L) {m : Nat}
    (hempty : L (.mutexWait m) = []) : SameQueues k (pthreadMutexInit k m) :=
  ⟨listInit_of_empty hi.lists hempty, rfl, rfl, rfl, fun _ => rfl, fun _ => rfl⟩

theorem QueueUsers.Initial.balanced {attr : MqAttr} (hinit : s.Initial board attr)
    (hmaxmsg : 1 ≤ attr.mqMaxmsg) (hmax : attr.mqMaxmsg ≤ semValueMax)
    (hmsgsize : 0 ≤ attr.mqMsgsize) (hproduct : attr.mqMaxmsg * attr.mqMsgsize < 2 ^ 31) :
    ∃ L, Balanced attr.mqMaxmsg.toNat attr.mqMsgsize.toNat s L := by
  obtain ⟨k, mem, name, flag, mode, buffer, objects, hreach, hunused, hopen⟩ := hinit.opened
  obtain ⟨-, buffer, objects, k₁, -, -, hmq, -, hkernel, hsem⟩ := mqOpen_ok hopen
  have hopened : Opened attr s.toMqState := ⟨⟨_, _, _, _, _, _, _, hopen⟩, hinit.below⟩
  have hsizele : attr.mqMsgsize ≤ attr.mqMaxmsg * attr.mqMsgsize := by
    have hone := mul_le_mul_of_nonneg_right hmaxmsg hmsgsize
    rwa [one_mul] at hone
  have hlimit := hopened.product_le (hmsgsize.trans hsizele) hproduct
  have hrefines := hopened.refines hmaxmsg (hmax.trans (by decide)) hmsgsize (hsizele.trans hlimit)
  obtain ⟨hvalue, hceiling, -⟩ := hrefines.units hinit.blocking
  obtain ⟨L, hi, hc⟩ := hreach.inv
  have hempty : ∀ h ∈ [Head.semWait objects.sem, .mutexWait objects.rMutex,
      .mutexWait objects.wMutex], L h = [] := by
    intro h hh
    rw [hmq] at hunused
    have := hunused h hh
    rwa [listIsEmpty_head hi.lists, List.isEmpty_iff] at this
  obtain ⟨hsame₁, -, hcur⟩ := semInit_same hi (hempty _ (by simp)) (hsem hinit.blocking)
  have hi₁ := hi.congr hsame₁
  have hsame₂ := pthreadMutexInit_same hi₁ (hempty (.mutexWait objects.rMutex) (by simp))
  have hsame₃ := pthreadMutexInit_same (hi₁.congr hsame₂)
    (hempty (.mutexWait objects.wMutex) (by simp))
  have hsame : SameQueues k s.kernel := hkernel ▸ hsame₁.trans (hsame₂.trans hsame₃)
  have hnobody : ∀ place : QueuePc, place ≠ .outside → s.number place = 0 := by
    intro place hplace
    refine (count_extend (Nat.zero_le _) fun t _ ht => ?_).trans (Nat.count_zero _)
    rw [hinit.outside t] at ht
    exact hplace ht.symm
  refine ⟨L, hi.congr hsame, hc.of_same hsame ?_, ?_, hceiling, fun t _ => hinit.outside t, [],
    hrefines.stores, ?_⟩
  · rw [hkernel]
    exact hcur
  · rw [hvalue]
  · unfold QueueUsers.units
    rw [hvalue, hnobody _ (by decide), hnobody _ (by decide)]
    rfl

/-! Every interleaving. -/

/-- The semaphore and the ring tell the same, up to the calls under way; a sender
can count on `sem_post`, and a receiver past `sem_wait` on a message. -/
structure InStep (s : QueueUsers) : Prop where
  balance : s.mq.mqAttr.mqCurmsgs = s.units + s.number .passed + s.number .enqueued
  everyone : ∀ t, s.kernel.count ≤ t → s.pc t = .outside
  posts : ∀ t, s.kernel.currentThread = some t → s.pc t = .enqueued →
    ∃ k, semPost s.kernel s.mq.objects.sem = some (k, 0) ∧
      (k.sem s.mq.objects.sem).value = s.units + 1
  receives : ∀ t, s.pc t = .passed →
    s.mq.mqAttr.mqCurmsgs ≠ 0 ∧ load32 s.mem (s.mq.recvPtr + 4) ≠ 0

theorem Balanced.inStep (hs : Balanced maxmsg msgsize s L) : InStep s where
  balance := by
    obtain ⟨q, hstores, hlength⟩ := hs.stored
    rw [hstores.curmsgs_eq, hlength]
    push_cast
    rfl
  everyone := hs.absent
  posts t ht hpc := by
    obtain ⟨k, L', hcall, hsem, -⟩ := hs.semPost_counts hpc ht
    exact ⟨k, hcall, congrArg Sem.value hsem⟩
  receives t hpc := by
    obtain ⟨msg, rest, hstores⟩ := hs.pending hpc
    refine ⟨?_, hstores.first.1⟩
    rw [hstores.curmsgs_eq, List.length_cons]
    omega

theorem queue_stays_in_step {attr : MqAttr} {s₀ : QueueUsers} (hinit : s₀.Initial board attr)
    (hmaxmsg : 1 ≤ attr.mqMaxmsg) (hmax : attr.mqMaxmsg ≤ semValueMax)
    (hmsgsize : 0 ≤ attr.mqMsgsize) (hproduct : attr.mqMaxmsg * attr.mqMsgsize < 2 ^ 31)
    (hrun : Reaches (queueStep board) anyStep s₀ s) : InStep s := by
  obtain ⟨L, hs⟩ := hrun.invariant
    (fun s => ∃ L, Balanced attr.mqMaxmsg.toNat attr.mqMsgsize.toNat s L)
    (hinit.balanced hmaxmsg hmax hmsgsize hproduct) (fun _ _ _ ⟨_, hs⟩ _ hstep => hs.step hstep)
  exact hs.inStep

/-- A queue opened on the booted machine. -/
def queueBoot (attr : MqAttr) : Option QueueUsers := do
  let k ← boot (threeThreads ++ [.start])
  match mqOpen k (fun _ => 0) true O_CREAT O_CREAT attr (some 0x20005000) (some ⟨0, 0, 1⟩) with
  | .ok s => some ⟨s, fun _ => .outside⟩
  | .error _ => none

theorem queueBoot_initial {attr : MqAttr} (hs : queueBoot attr = some s)
    (hsize : (sizeofMqMsg + sizeT attr.mqMsgsize) * sizeT attr.mqMaxmsg % 2 ^ 32 < 0x1000) :
    s.Initial discoveryBoard attr := by
  unfold queueBoot at hs
  rw [Option.bind_eq_bind, Option.bind_eq_some_iff] at hs
  obtain ⟨k, hk, hs⟩ := hs
  split at hs
  swap
  · cases hs
  next opened hopen =>
  cases hs
  obtain ⟨-, buffer, objects, k₁, hbuffer, hobjects, hmq, -⟩ := mqOpen_ok hopen
  cases hbuffer
  cases hobjects
  refine ⟨⟨k, _, _, _, _, _, _, reachable_boot hk, ?_, hopen⟩, ?_, ?_, fun _ => rfl⟩
  · have hunused : (boot (threeThreads ++ [.start])).map
        (fun k => decide (Unused k ⟨0, 0, 1⟩)) = some true := by decide +kernel
    rw [hk] at hunused
    rw [hmq]
    exact of_decide_eq_true (Option.some.inj hunused)
  · rw [hmq]
    exact (Nat.add_lt_add_left hsize 0x20005000).trans (by decide)
  · rw [hmq]
    exact (by decide : decide (O_CREAT &&& O_NONBLOCK = 0) = true)

/-- Thread 1 has sent two messages and is about to take the first. -/
theorem two_messages_in_step :
    ∃ s₀ s, queueBoot ⟨0, 2, 4, 0⟩ = some s₀ ∧
      runInputs (queueStep discoveryBoard) anyStep
        [.send [1, 2], .post, .send [3], .post, .wait] s₀ = some s ∧
      s.pc 1 = .passed ∧ InStep s := by
  have hplace : ((queueBoot ⟨0, 2, 4, 0⟩).bind (runInputs (queueStep discoveryBoard) anyStep
      [.send [1, 2], .post, .send [3], .post, .wait])).map (fun s => s.pc 1) = some .passed := by
    decide +kernel
  obtain ⟨s, hs, hpc⟩ := Option.map_eq_some_iff.mp hplace
  obtain ⟨s₀, h₀, hrun⟩ := Option.bind_eq_some_iff.mp hs
  exact ⟨s₀, s, h₀, hrun, hpc, queue_stays_in_step (queueBoot_initial h₀ (by decide)) (by decide)
    (by decide) (by decide) (by decide) (.of_runInputs hrun)⟩

/-- `mq_open` lets a negative `mq_msgsize` pass. With -4 a slot is four bytes long:
the size of the second message is stored over the flag of the first, and the
receiver finds its slot unused. -/
theorem negative_msgsize_out_of_step :
    ∃ s₀ s, s₀.Initial discoveryBoard ⟨0, 2, -4, 0⟩ ∧
      Reaches (queueStep discoveryBoard) anyStep s₀ s ∧ s.pc 1 = .passed ∧
      load32 s.mem (s.mq.recvPtr + 4) = 0 ∧ ¬ InStep s := by
  have hfacts : ((queueBoot ⟨0, 2, -4, 0⟩).bind (runInputs (queueStep discoveryBoard) anyStep
      [.send [], .post, .send [], .post, .wait])).map
        (fun s => (s.pc 1, load32 s.mem (s.mq.recvPtr + 4))) = some (.passed, 0) := by
    decide +kernel
  obtain ⟨s, hs, hfacts⟩ := Option.map_eq_some_iff.mp hfacts
  rw [Prod.mk.injEq] at hfacts
  obtain ⟨s₀, h₀, hrun⟩ := Option.bind_eq_some_iff.mp hs
  refine ⟨s₀, s, queueBoot_initial h₀ (by decide), .of_runInputs hrun, hfacts.1, hfacts.2, ?_⟩
  intro hstep
  exact (hstep.receives 1 hfacts.1).2 hfacts.2

end PosixRtos.Mqueue
