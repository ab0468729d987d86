import PosixRtos.Heap.Cleared
import PosixRtos.Mqueue.Calls

/-! `mq_open` with the heap that it takes its two blocks from. A call that fails
after the first request gives back what it has been given. -/
namespace PosixRtos.Mqueue

open PosixRtos.Kernel PosixRtos.Library.ByteMemory PosixRtos.Heap

/-- `sizeof(mq_t)`. -/
def sizeofMq : Nat := 72

/-- The semaphore and the mutexes are members of the queue object at `p`. -/
def MqObjects.ofAddress (p : Nat) : MqObjects := ⟨p + 32, p + 48, p + 60⟩

structure System where
  heap : HeapMem
  memory : Memory
  kernel : State

/-- The address of the queue object and what is in it; `none` is a failure. -/
abbrev NewQueue := Option (Nat × Mq)

/-- What `mq_open` returns: an address as an `int`, or `EINVAL` without a sign. -/
def mqdOf : NewQueue → Int
  | none => EINVAL
  | some (p, _) => (BitVec.ofNat 32 p).toInt

/-- The part after the two requests. -/
def mqSetUp (s : System) (flag : BitVec 32) (mqAttr : MqAttr) (buffer size p : Nat) :
    Except Fault (System × NewQueue) :=
  let mq := Mq.initialized mqAttr flag buffer size (.ofAddress p)
  let (kernel, ret) :=
    if mq.blocking then semInit s.kernel mq.objects.sem (sizeT mqAttr.mqMaxmsg)
    else (s.kernel, 0)
  if ret ≠ 0 then do
    let heap ← free s.heap p
    let heap ← free heap buffer
    .ok ({ s with heap := heap, kernel := kernel }, none)
  else
    let kernel := pthreadMutexInit kernel mq.objects.rMutex
    let kernel := pthreadMutexInit kernel mq.objects.wMutex
    .ok ({ s with kernel := kernel }, some (p, mq))

/-- The part after the request for the buffer. -/
def mqRequestObject (s : System) (flag : BitVec 32) (mqAttr : MqAttr) (buffer size : Nat) :
    Except Fault (System × NewQueue) := do
  let (heap, memory, p) ← zalloc s.heap s.memory sizeofMq
  match p with
  | none => do
      let heap ← free heap buffer
      .ok (⟨heap, memory, s.kernel⟩, none)
  | some p => mqSetUp ⟨heap, memory, s.kernel⟩ flag mqAttr buffer size p

/-- `mq_open`. An assertion of the heap that fails does not return. -/
def mqOpenIn (s : System) (name : Bool) (flag mode : BitVec 32) (mqAttr : MqAttr) :
    Except Fault (System × NewQueue) :=
  if name = false ∨ flag &&& O_CREAT = 0 then .ok (s, none)
  else if mode ≠ flag then .ok (s, none)
  else if mqMsgSizeMax * mqMsgNumMax < mqAttr.product then .ok (s, none)
  else do
    let size := (sizeofMqMsg + sizeT mqAttr.mqMsgsize) * sizeT mqAttr.mqMaxmsg % 2 ^ 32
    let (heap, memory, buffer) ← zalloc s.heap s.memory size
    match buffer with
    | none => .ok (⟨heap, memory, s.kernel⟩, none)
    | some buffer => mqRequestObject ⟨heap, memory, s.kernel⟩ flag mqAttr buffer size

/-- The headers of the blocks that are in use. -/
def usedBlocks (h : HeapMem) : Set Nat := { b | b ∈ h.blocks ∧ h.used b = true }

variable {s t : System} {live bs : List Nat} {h h' : HeapMem} {memory memory' : Memory}
  {name : Bool} {flag mode : BitVec 32} {attr : MqAttr} {buffer size p n : Nat}

/-- The live pointers tell which blocks are in use. -/
theorem usedBlocks_eq {bs' : List Nat} (ho : Owns h live bs) (ho' : Owns h' live bs') :
    usedBlocks h' = usedBlocks h := by
  ext b
  have hmem : ∀ {h : HeapMem} {bs : List Nat}, Owns h live bs →
      (b ∈ usedBlocks h ↔ b + sizeofHeapMem ∈ live) := by
    intro h bs ho
    rw [ho.payloads]
    change b ∈ h.blocks ∧ h.used b = true ↔ _
    rw [ho.tiled.blocks_eq]
    constructor
    · rintro ⟨hb, hused⟩
      exact ⟨b, hb, hused, rfl⟩
    · rintro ⟨b', hb', hused, heq⟩
      cases Nat.add_right_cancel heq
      exact ⟨hb', hused⟩
  rw [hmem ho, hmem ho']

theorem malloc_of_zalloc {r : Option Nat} (hcall : zalloc h memory n = .ok (h', memory', r)) :
    malloc h n = .ok (h', r) := by
  rw [zalloc_eq] at hcall
  unfold afterMalloc at hcall
  generalize malloc h n = result at hcall
  cases result with
  | error fault => cases hcall
  | ok result =>
    cases hcall
    rfl

theorem zalloc_owns (ho : Owns h live bs) {r : Option Nat}
    (hcall : zalloc h memory n = .ok (h', memory', r)) : ∃ bs', Owns h' (r.toList ++ live) bs' :=
  (ho.after_malloc (malloc_of_zalloc hcall)).1

theorem free_owns {mem : Nat} (ho : Owns h live bs) (hmem : mem ∈ live)
    (hcall : free h mem = .ok h') : ∃ bs', Owns h' (live.erase mem) bs' := by
  obtain ⟨h'', bs', hfree, ho', -⟩ := ho.free_live hmem
  rw [hcall] at hfree
  cases hfree
  exact ⟨bs', ho'⟩

/-- The pointers that a call leaves allocated. -/
def NewQueue.pointers : NewQueue → List Nat
  | none => []
  | some (p, mq) => [p, mq.mqPbuf]

theorem ok_of_bind_ok {ε α β : Type} {x : Except ε α} {f : α → Except ε β} {b : β}
    (h : x >>= f = .ok b) : ∃ a, x = .ok a ∧ f a = .ok b := by
  cases x with
  | error e => cases h
  | ok a => exact ⟨a, rfl, h⟩

theorem mqSetUp_owns {queue : NewQueue} (ho : Owns s.heap (p :: buffer :: live) bs)
    (hcall : mqSetUp s flag attr buffer size p = .ok (t, queue)) :
    ∃ bs', Owns t.heap (queue.pointers ++ live) bs' := by
  unfold mqSetUp at hcall
  dsimp only at hcall
  generalize (if (Mq.initialized attr flag buffer size (.ofAddress p)).blocking then _
    else (s.kernel, (0 : Int))) = init at hcall
  split at hcall
  · -- both blocks are given back
    obtain ⟨h₁, hfree₁, hcall⟩ := ok_of_bind_ok hcall
    obtain ⟨h₂, hfree₂, hcall⟩ := ok_of_bind_ok hcall
    cases hcall
    obtain ⟨bs₁, ho₁⟩ := free_owns ho List.mem_cons_self hfree₁
    rw [List.erase_cons_head] at ho₁
    obtain ⟨bs₂, ho₂⟩ := free_owns ho₁ List.mem_cons_self hfree₂
    rw [List.erase_cons_head] at ho₂
    exact ⟨bs₂, ho₂⟩
  · cases hcall
    exact ⟨bs, ho⟩

theorem mqRequestObject_owns {queue : NewQueue} (ho : Owns s.heap (buffer :: live) bs)
    (hcall : mqRequestObject s flag attr buffer size = .ok (t, queue)) :
    ∃ bs', Owns t.heap (queue.pointers ++ live) bs' := by
  obtain ⟨⟨h₁, memory₁, r⟩, hzalloc, hcall⟩ := ok_of_bind_ok hcall
  obtain ⟨bs₁, ho₁⟩ := zalloc_owns ho hzalloc
  cases r with
  | none =>
    obtain ⟨h₂, hfree, hcall⟩ := ok_of_bind_ok hcall
    cases hcall
    obtain ⟨bs₂, ho₂⟩ := free_owns ho₁ List.mem_cons_self hfree
    rw [Option.toList_none, List.nil_append, List.erase_cons_head] at ho₂
    exact ⟨bs₂, ho₂⟩
  | some p => exact mqSetUp_owns ho₁ hcall

/-- A call leaves the blocks of a queue that it has created, and no others. -/
theorem mqOpenIn_owns {queue : NewQueue} (ho : Owns s.heap live bs)
    (hcall : mqOpenIn s name flag mode attr = .ok (t, queue)) :
    ∃ bs', Owns t.heap (queue.pointers ++ live) bs' := by
  unfold mqOpenIn at hcall
  iterate 3
    split at hcall
    · cases hcall
      exact ⟨bs, ho⟩
  obtain ⟨⟨h₁, memory₁, r⟩, hzalloc, hcall⟩ := ok_of_bind_ok hcall
  obtain ⟨bs₁, ho₁⟩ := zalloc_owns ho hzalloc
  cases r with
  | none =>
    cases hcall
    exact ⟨bs₁, ho₁⟩
  | some buffer => exact mqRequestObject_owns ho₁ hcall

/-- Whatever the reason for a failure is, the used blocks are those from before. -/
theorem mqOpenIn_failed (ho : Owns s.heap live bs)
    (hcall : mqOpenIn s name flag mode attr = .ok (t, none)) :
    usedBlocks t.heap = usedBlocks s.heap := by
  obtain ⟨bs', ho'⟩ := mqOpenIn_owns ho hcall
  exact usedBlocks_eq ho ho'

/-- A queue that was created is one that `mqOpen` returns, whatever was in
the memory of the buffer. -/
theorem mqOpenIn_created {mq : Mq} (hcall : mqOpenIn s name flag mode attr = .ok (t, some (p, mq)))
    (mem : Memory) : ∃ o, mqOpen s.kernel mem name flag mode attr (some mq.mqPbuf)
      (some (.ofAddress p)) = .ok o ∧ o.kernel = t.kernel ∧ o.mq = mq := by
  unfold mqOpenIn at hcall
  iterate 3
    split at hcall
    · cases hcall
  next hflag hmode hproduct =>
  obtain ⟨⟨h₁, memory₁, r⟩, -, hcall⟩ := ok_of_bind_ok hcall
  rcases r with - | buffer
  · cases hcall
  obtain ⟨⟨h₂, memory₂, r⟩, -, hcall⟩ := ok_of_bind_ok hcall
  rcases r with - | q
  · obtain ⟨h₃, -, hcall⟩ := ok_of_bind_ok hcall
    cases hcall
  dsimp only at hcall
  unfold mqSetUp at hcall
  dsimp only at hcall
  generalize hinit : (if (Mq.initialized attr flag buffer _ (.ofAddress q)).blocking then _
    else (s.kernel, (0 : Int))) = init at hcall
  split at hcall
  · obtain ⟨h₃, -, hcall⟩ := ok_of_bind_ok hcall
    obtain ⟨h₄, -, hcall⟩ := ok_of_bind_ok hcall
    cases hcall
  next hret =>
  cases hcall
  rw [mqOpen, if_neg hflag, if_neg hmode, if_neg hproduct]
  subst hinit
  dsimp only
  exact ⟨_, if_neg hret, rfl, rfl⟩

end PosixRtos.Mqueue
