import PosixRtos.Mqueue.Opening

/-! The input system of `input.c`: a message queue for each type of event. `mq_open`
returns `EINVAL` where it fails, and `input_open` takes that for a queue because it
looks for a negative number. -/
namespace PosixRtos.Drivers

open PosixRtos.Kernel PosixRtos.Library.ByteMemory PosixRtos.Library.Runs PosixRtos.Heap
  PosixRtos.Mqueue

def eventTypeMax : Nat := 4

/-- `sizeof(struct input_event)`. -/
def sizeofInputEvent : Int := 4

/-- `mq_open` does not read the other two fields. -/
def inputAttr : MqAttr := ⟨0, 16, sizeofInputEvent, 0⟩

structure InputState where
  system : System
  inputEventTable : Vector Int eventTypeMax

def inputInit (system : System) : InputState := ⟨system, .replicate eventTypeMax 0⟩

/-- How `input_open` returns, and what `mq_open` has created for it if it was called. -/
structure InputOpened where
  state : InputState
  ret : Int
  queue : Option NewQueue

/-- `input_open`; `none` where it does not return, or where a negative type leads out
of the table. -/
def inputOpen (s : InputState) (type : Int) (flag : BitVec 32) : Option InputOpened :=
  if eventTypeMax ≤ type then some ⟨s, -EINVAL, none⟩
  else
    match mqOpenIn s.system true flag flag inputAttr with
    | .error _ => none
    | .ok (system, queue) =>
        if mqdOf queue < 0 then some ⟨{ s with system := system }, -EINVAL, some queue⟩
        else if h : 0 ≤ type ∧ type.toNat < eventTypeMax then
          some ⟨⟨system, s.inputEventTable.set type.toNat (mqdOf queue) h.2⟩, 0, some queue⟩
        else none

/-- The queue of a type; `none` where the caller returns `-EINVAL`. -/
def queueOf (s : InputState) (type : Nat) : Option Int :=
  s.inputEventTable[type]?.filter (· ≠ 0)

/-- The queue that `input_report` passes to `mq_send`. -/
def inputReport (s : InputState) (type : Nat) : Option Int := queueOf s type

/-- The queue that `input_event_catch` passes to `mq_receive`. -/
def inputEventCatch (s : InputState) (type : Nat) : Option Int := queueOf s type

/-! The input system among other users of the heap and of `mq_open`. -/

/-- `live` are the pointers that are allocated. Noted are the queues that `mq_open` has
created, those that were passed on, and the heap before and after each failure. -/
structure InputRun where
  state : InputState
  live : List Nat
  created : List Int
  passed : List Int
  failures : List (HeapMem × HeapMem)

inductive InputAct where
  | heap (act : HeapAct)
  | elsewhere (memory : Memory) (kernel : State)
  | mqOpen (name : Bool) (flag mode : BitVec 32) (attr : MqAttr)
  | inputOpen (type : Int) (flag : BitVec 32)
  | inputReport (type : Nat)
  | inputEventCatch (type : Nat)

def InputRun.start (heap : HeapMem) (memory : Memory) (kernel : State) : InputRun :=
  ⟨inputInit ⟨heap, memory, kernel⟩, [], [], [], []⟩

/-- `mq_open` has returned. -/
def InputRun.note (s : InputRun) (state : InputState) (queue : NewQueue) : InputRun :=
  { s with
    state := state
    live := queue.pointers ++ s.live
    created := s.created ++ (queue.map fun _ => mqdOf queue).toList
    failures := s.failures ++
      if queue.isNone then [(s.state.system.heap, state.system.heap)] else [] }

def inputStep (s : InputRun) : InputAct → Option InputRun
  | .heap act => (heapStep ⟨s.state.system.heap, s.live⟩ act).map fun a =>
      { s with
        state := { s.state with system := { s.state.system with heap := a.heap } }
        live := a.live }
  | .elsewhere memory kernel =>
      some { s with state := { s.state with system := ⟨s.state.system.heap, memory, kernel⟩ } }
  | .mqOpen name flag mode attr =>
      match mqOpenIn s.state.system name flag mode attr with
      | .error _ => none
      | .ok (system, queue) => some (s.note { s.state with system := system } queue)
  | .inputOpen type flag => (inputOpen s.state type flag).map fun r =>
      match r.queue with
      | none => { s with state := r.state }
      | some queue => s.note r.state queue
  | .inputReport type =>
      some { s with passed := s.passed ++ (inputReport s.state type).toList }
  | .inputEventCatch type =>
      some { s with passed := s.passed ++ (inputEventCatch s.state type).toList }

/-! When `mq_open` does not fail for `input_open`. -/

/-- The buffer of sixteen events. -/
def inputBufferSize : Nat := 192

/-- `malloc` has returned NULL. -/
def returnsNull : Except Fault (HeapMem × Option Nat) → Bool
  | .ok (_, none) => true
  | _ => false

/-- `O_CREAT` is given, and neither request finds the heap without a block. -/
def Openable (h : HeapMem) (flag : BitVec 32) : Prop :=
  flag &&& O_CREAT ≠ 0 ∧ returnsNull (malloc h inputBufferSize) = false ∧
    ∀ after ∈ (malloc h inputBufferSize).toOption,
      returnsNull (malloc after.1 sizeofMq) = false

instance (h : HeapMem) (flag : BitVec 32) : Decidable (Openable h flag) :=
  inferInstanceAs (Decidable (_ ∧ _ ∧ _))

/-- If `mq_open` has failed, its blocks are free again, the caller is told so, and the
table is as before. -/
def FailsCleanly (s : InputState) (r : InputOpened) : Prop :=
  r.queue = some none →
    usedBlocks r.state.system.heap = usedBlocks s.system.heap ∧ r.ret = -EINVAL ∧
      r.state.inputEventTable = s.inputEventTable

/-- The calls of `input_open` find `mq_open` able to create the queue. -/
def OpensQueues (s : InputRun) : InputAct → Prop
  | .inputOpen type flag => type < eventTypeMax → Openable s.state.system.heap flag
  | _ => True

instance (s : InputRun) : (act : InputAct) → Decidable (OpensQueues s act)
  | .inputOpen _ _ => inferInstanceAs (Decidable (_ → _))
  | .heap _ | .elsewhere _ _ | .mqOpen _ _ _ _ | .inputReport _ | .inputEventCatch _ =>
      .isTrue trivial

variable {s t : System} {flag : BitVec 32} {queue : NewQueue} {buffer size p : Nat}

/-- The semaphore of sixteen events is never refused. -/
theorem mqSetUp_input (hcall : mqSetUp s flag inputAttr buffer size p = .ok (t, queue)) :
    queue ≠ none := by
  unfold mqSetUp at hcall
  dsimp only at hcall
  have hinit : (if (Mq.initialized inputAttr flag buffer size (.ofAddress p)).blocking then
      semInit s.kernel (Mq.initialized inputAttr flag buffer size (.ofAddress p)).objects.sem
        (sizeT inputAttr.mqMaxmsg) else (s.kernel, 0)).2 = 0 := by
    split
    · rfl
    · rfl
  rw [if_neg (not_not.mpr hinit)] at hcall
  cases hcall
  exact Option.some_ne_none _

theorem mqRequestObject_input
    (hcall : mqRequestObject s flag inputAttr buffer size = .ok (t, queue)) :
    queue ≠ none ↔ returnsNull (malloc s.heap sizeofMq) = false := by
  obtain ⟨⟨h₁, memory₁, r⟩, hzalloc, hcall⟩ := ok_of_bind_ok hcall
  rw [malloc_of_zalloc hzalloc]
  cases r with
  | none =>
    obtain ⟨h₂, -, hcall⟩ := ok_of_bind_ok hcall
    cases hcall
    exact iff_of_false (not_not.mpr rfl) Bool.true_eq_false.mp
  | some p => exact iff_of_true (mqSetUp_input hcall) rfl

/-- A call that returns has created a queue exactly in these states of the heap. -/
theorem mqOpenIn_input (hcall : mqOpenIn s true flag flag inputAttr = .ok (t, queue)) :
    queue ≠ none ↔ Openable s.heap flag := by
  unfold mqOpenIn at hcall
  split at hcall
  · next hflag =>
    cases hcall
    have hcreat : flag &&& O_CREAT = 0 := hflag.resolve_left Bool.true_eq_false.mp
    exact iff_of_false (not_not.mpr rfl) fun hopen => hopen.1 hcreat
  next hflag =>
  have hcreat : flag &&& O_CREAT ≠ 0 := fun hzero => hflag (.inr hzero)
  rw [if_neg (not_not.mpr rfl), if_neg (by decide)] at hcall
  obtain ⟨⟨h₁, memory₁, r⟩, hzalloc, hcall⟩ := ok_of_bind_ok hcall
  have hmalloc : malloc s.heap inputBufferSize = .ok (h₁, r) := malloc_of_zalloc hzalloc
  unfold Openable
  rw [hmalloc]
  cases r with
  | none =>
    cases hcall
    exact iff_of_false (not_not.mpr rfl) fun hopen => Bool.true_eq_false.mp hopen.2.1
  | some buffer =>
    have hobject := mqRequestObject_input hcall
    constructor
    · intro hqueue
      refine ⟨hcreat, rfl, fun after hafter => ?_⟩
      cases hafter
      exact hobject.mp hqueue
    · intro hopen
      exact hobject.mpr (hopen.2.2 _ rfl)

/-! What a call does to the table. -/

inductive Returns (s : InputState) (type : Int) (flag : BitVec 32) : InputOpened → Prop where
  | noType (htype : eventTypeMax ≤ type) : Returns s type flag ⟨s, -EINVAL, none⟩
  | negative {system : System} {queue : NewQueue} (htype : type < eventTypeMax)
      (hcall : mqOpenIn s.system true flag flag inputAttr = .ok (system, queue))
      (hmqd : mqdOf queue < 0) :
      Returns s type flag ⟨{ s with system := system }, -EINVAL, some queue⟩
  | stored {system : System} {queue : NewQueue} (htype : type < eventTypeMax)
      (hcall : mqOpenIn s.system true flag flag inputAttr = .ok (system, queue))
      (hindex : type.toNat < eventTypeMax) :
      Returns s type flag
        ⟨⟨system, s.inputEventTable.set type.toNat (mqdOf queue) hindex⟩, 0, some queue⟩

variable {state : InputState} {type : Int} {r : InputOpened}

theorem inputOpen_returns (hcall : inputOpen state type flag = some r) :
    Returns state type flag r := by
  unfold inputOpen at hcall
  split at hcall
  · next htype =>
    cases hcall
    exact .noType htype
  next htype =>
  have htype : type < eventTypeMax := not_le.mp htype
  split at hcall
  · cases hcall
  next system queue hopen =>
  split at hcall
  · next hmqd =>
    cases hcall
    exact .negative htype hopen hmqd
  split at hcall
  · next hindex =>
    cases hcall
    exact .stored htype hopen hindex.2
  · cases hcall

/-- A failure is always taken for a queue, so only the calls without one are clean. -/
theorem Returns.failsCleanly_iff (h : Returns state type flag r) (htype : type < eventTypeMax) :
    FailsCleanly state r ↔ Openable state.system.heap flag := by
  cases h with
  | noType hlarge => exact absurd htype (not_lt.mpr hlarge)
  | negative _ hcall hmqd =>
    rw [← mqOpenIn_input hcall]
    have hqueue : ∀ {queue : NewQueue}, mqdOf queue < 0 → queue ≠ none := by
      rintro queue hneg rfl
      exact absurd hneg (by decide)
    refine iff_of_true (fun hfailed => ?_) (hqueue hmqd)
    exact absurd (Option.some.inj hfailed) (hqueue hmqd)
  | @stored system queue _ hcall hindex =>
    rw [← mqOpenIn_input hcall]
    constructor
    · intro hclean hqueue
      obtain ⟨-, hret, -⟩ := hclean (congrArg some hqueue)
      have hzero : (0 : Int) ≠ -EINVAL := by decide
      exact hzero hret
    · intro hqueue hfailed
      exact absurd (Option.some.inj hfailed) hqueue

/-! The heap in every run. -/

structure InputRun.Kept (s : InputRun) : Prop where
  owned : ∃ bs, Owns s.state.system.heap s.live bs
  failures : ∀ f ∈ s.failures, usedBlocks f.2 = usedBlocks f.1

variable {run run' : InputRun} {act : InputAct}

theorem InputRun.Kept.note {name : Bool} {mode : BitVec 32} {attr : MqAttr} (h : run.Kept)
    (hcall : mqOpenIn run.state.system name flag mode attr = .ok (t, queue))
    (hsystem : state.system = t) : (run.note state queue).Kept := by
  obtain ⟨bs, ho⟩ := h.owned
  subst hsystem
  constructor
  · exact mqOpenIn_owns ho hcall
  · intro f hf
    rcases List.mem_append.mp hf with hf | hf
    · exact h.failures f hf
    cases queue with
    | none =>
      cases List.mem_singleton.mp hf
      exact mqOpenIn_failed ho hcall
    | some created => cases hf

theorem InputRun.Kept.step (h : run.Kept) (hstep : inputStep run act = some run') : run'.Kept := by
  cases act with
  | heap act =>
    obtain ⟨a, ha, rfl⟩ := Option.map_eq_some_iff.mp hstep
    obtain ⟨bs, ho⟩ := h.owned
    exact ⟨(Owns.step ho ha).1, h.failures⟩
  | elsewhere memory kernel =>
    cases hstep
    exact ⟨h.owned, h.failures⟩
  | mqOpen name flag mode attr =>
    unfold inputStep at hstep
    dsimp only at hstep
    split at hstep
    · cases hstep
    next hcall =>
    cases hstep
    exact h.note hcall rfl
  | inputOpen type flag =>
    obtain ⟨r, hr, rfl⟩ := Option.map_eq_some_iff.mp hstep
    cases inputOpen_returns hr with
    | noType => exact ⟨h.owned, h.failures⟩
    | negative _ hcall => exact h.note hcall rfl
    | stored _ hcall => exact h.note hcall rfl
  | inputReport type =>
    cases hstep
    exact ⟨h.owned, h.failures⟩
  | inputEventCatch type =>
    cases hstep
    exact ⟨h.owned, h.failures⟩

/-! The table in the runs in which `mq_open` does not fail for `input_open`. -/

structure InputRun.Genuine (s : InputRun) : Prop where
  table : ∀ mqd ∈ s.state.inputEventTable, mqd ≠ 0 → mqd ∈ s.created
  passed : ∀ mqd ∈ s.passed, mqd ∈ s.created

theorem InputRun.Genuine.pass (h : run.Genuine) (type : Nat) :
    { run with passed := run.passed ++ (queueOf run.state type).toList }.Genuine := by
  refine ⟨h.table, fun mqd hmqd => ?_⟩
  rcases List.mem_append.mp hmqd with hmqd | hmqd
  · exact h.passed mqd hmqd
  · obtain ⟨hentry, hzero⟩ := Option.filter_eq_some_iff.mp (Option.mem_toList.mp hmqd)
    exact h.table mqd (Vector.mem_of_getElem? hentry) (of_decide_eq_true hzero)

theorem InputRun.Genuine.note (h : run.Genuine)
    (htable : ∀ mqd ∈ state.inputEventTable,
      mqd ∈ run.state.inputEventTable ∨ (queue ≠ none ∧ mqd = mqdOf queue)) :
    (run.note state queue).Genuine := by
  constructor
  · intro mqd hmqd hzero
    rcases htable mqd hmqd with hold | ⟨hqueue, rfl⟩
    · exact List.mem_append_left _ (h.table mqd hold hzero)
    · apply List.mem_append_right
      cases queue with
      | none => exact absurd rfl hqueue
      | some created => exact List.mem_singleton_self _
  · intro mqd hmqd
    exact List.mem_append_left _ (h.passed mqd hmqd)

theorem InputRun.Genuine.step (h : run.Genuine) (hok : OpensQueues run act)
    (hstep : inputStep run act = some run') : run'.Genuine := by
  cases act with
  | heap act =>
    obtain ⟨a, ha, rfl⟩ := Option.map_eq_some_iff.mp hstep
    exact ⟨h.table, h.passed⟩
  | elsewhere memory kernel =>
    cases hstep
    exact ⟨h.table, h.passed⟩
  | mqOpen name flag mode attr =>
    unfold inputStep at hstep
    dsimp only at hstep
    split at hstep
    · cases hstep
    cases hstep
    exact h.note fun mqd hmqd => .inl hmqd
  | inputOpen type flag =>
    obtain ⟨r, hr, rfl⟩ := Option.map_eq_some_iff.mp hstep
    cases inputOpen_returns hr with
    | noType => exact ⟨h.table, h.passed⟩
    | negative => exact h.note fun mqd hmqd => .inl hmqd
    | stored htype hcall hindex =>
      have hqueue := (mqOpenIn_input hcall).mpr (hok htype)
      refine h.note fun mqd hmqd => ?_
      have hset : mqd ∈ run.state.inputEventTable.set type.toNat _ hindex := hmqd
      rcases Vector.mem_or_eq_of_mem_set hset with hold | hnew
      · exact .inl hold
      · exact .inr ⟨hqueue, hnew⟩
  | inputReport type =>
    cases hstep
    exact h.pass type
  | inputEventCatch type =>
    cases hstep
    exact h.pass type

/-- In every run a failure leaves the used blocks as they were, and a call of `input_open`
is clean exactly if `mq_open` does not fail in it. As long as all calls are so, only
queues that `mq_open` has created are used. -/
theorem failed_queue_is_not_used {beginAddr endAddr : Nat} (hregion : Region beginAddr endAddr)
    (h₀ : HeapMem) (memory : Memory) (kernel : State) :
    (∀ run, Reaches inputStep anyStep
        (InputRun.start (heapMemInit h₀ beginAddr endAddr) memory kernel) run →
      (∀ f ∈ run.failures, usedBlocks f.2 = usedBlocks f.1) ∧
      ∀ type flag r, type < (eventTypeMax : Int) → inputOpen run.state type flag = some r →
        (FailsCleanly run.state r ↔ Openable run.state.system.heap flag)) ∧
    ∀ run, Reaches inputStep OpensQueues
        (InputRun.start (heapMemInit h₀ beginAddr endAddr) memory kernel) run →
      (∀ mqd ∈ run.state.inputEventTable, mqd ≠ 0 → mqd ∈ run.created) ∧
      ∀ mqd ∈ run.passed, mqd ∈ run.created := by
  constructor
  · intro run hrun
    constructor
    · have hkept : run.Kept := by
        apply hrun.invariant InputRun.Kept
        · exact ⟨⟨_, (heapMemInit_owns h₀ hregion).1⟩, nofun⟩
        · intro s act t h _ hstep
          exact h.step hstep
      exact hkept.failures
    · intro type flag r htype hcall
      exact (inputOpen_returns hcall).failsCleanly_iff htype
  · intro run hrun
    have hgenuine : run.Genuine := by
      apply hrun.invariant InputRun.Genuine
      · refine ⟨fun mqd hmqd hzero => ?_, nofun⟩
        exact absurd (Vector.eq_of_mem_replicate hmqd) hzero
      · intro s act t h hok hstep
        exact h.step hok hstep
    exact ⟨hgenuine.table, hgenuine.passed⟩

def noHeap : HeapMem := ⟨⟨id, id⟩, fun _ => false, 0, 0, 0, 0, 0⟩

/-- A heap of a kilobyte. -/
def smallInput : InputRun :=
  InputRun.start (heapMemInit noHeap 0x20000001 0x200003ff) (fun _ => 0xff) clearedState

def openAndReport (flag : BitVec 32) : List InputAct := [.inputOpen 3 flag, .inputReport 3]

/-- An event is sent to the queue that was created for it. -/
theorem event_reaches_created_queue :
    ∃ run, runInputs inputStep OpensQueues (openAndReport O_CREAT) smallInput = some run ∧
      run.passed = [0x200000dc] ∧ ∀ mqd ∈ run.passed, mqd ∈ run.created := by
  have hfacts : (runInputs inputStep OpensQueues (openAndReport O_CREAT) smallInput).map
      (fun run => run.passed) = some [0x200000dc] := by decide +kernel
  obtain ⟨run, hrun, hpassed⟩ := Option.map_eq_some_iff.mp hfacts
  have hregion : Region 0x20000001 0x200003ff := ⟨by decide, by decide, by decide⟩
  have hqueues := failed_queue_is_not_used hregion noHeap (fun _ => 0xff) clearedState
  exact ⟨run, hrun, hpassed, (hqueues.2 run (.of_runInputs hrun)).2⟩

/-- Without `O_CREAT` `mq_open` creates nothing and returns 22. `input_open` returns
success, and the next event goes to a queue at address 22. -/
theorem event_reaches_error_code :
    ∃ r run, inputOpen smallInput.state 3 O_NONBLOCK = some r ∧ r.queue = some none ∧ r.ret = 0 ∧
      ¬ FailsCleanly smallInput.state r ∧
      runInputs inputStep anyStep (openAndReport O_NONBLOCK) smallInput = some run ∧
      run.created = [] ∧ run.passed = [22] := by
  have hopen : (inputOpen smallInput.state 3 O_NONBLOCK).map
      (fun r => (r.queue.map Option.isNone, r.ret)) = some (some true, 0) := by decide +kernel
  have hfacts : (runInputs inputStep anyStep (openAndReport O_NONBLOCK) smallInput).map
      (fun run => (run.created, run.passed)) = some ([], [22]) := by decide +kernel
  obtain ⟨r, hr, hview⟩ := Option.map_eq_some_iff.mp hopen
  obtain ⟨run, hrun, hlogs⟩ := Option.map_eq_some_iff.mp hfacts
  rw [Prod.mk.injEq] at hview hlogs
  have hclosed : ¬ Openable smallInput.state.system.heap O_NONBLOCK := by decide
  have hclean := (inputOpen_returns hr).failsCleanly_iff (by decide)
  obtain ⟨queue, hqueue, hnone⟩ := Option.map_eq_some_iff.mp hview.1
  rw [Option.isNone_iff_eq_none] at hnone
  rw [hnone] at hqueue
  exact ⟨r, run, hr, hqueue, hview.2, fun h => hclosed (hclean.mp h), hrun, hlogs⟩

end PosixRtos.Drivers
