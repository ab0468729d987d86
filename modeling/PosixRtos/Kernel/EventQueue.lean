import PosixRtos.Library.RingBuffer
import PosixRtos.Library.Runs

/-! The event queue of `queue.h`. The two calls are modelled twice: as functions,
and as the loads and stores that they consist of, for one producer and one
consumer that run at the same time. `none` is an access outside of the buffer. -/
namespace PosixRtos.Kernel.EventQueue

open PosixRtos.Library.RingBuffer PosixRtos.Library.Runs

abbrev Data := BitVec 32

def queueBufferMax : Nat := 32

structure Queue where
  buffer : Vector Data queueBufferMax
  head : Nat
  tail : Nat

def Queue.load (queue : Queue) (i : Nat) : Option Data := queue.buffer[i]?

def Queue.store (queue : Queue) (i : Nat) (data : Data) : Option Queue :=
  if h : i < queueBufferMax then some { queue with buffer := queue.buffer.set i data h } else none

/-- `(i + 1) % QUEUE_BUFFER_MAX`. -/
def next (i : Nat) : Nat := (i + 1) % queueBufferMax

def queuePush (queue : Queue) (data : Data) : Option (Queue × Int) :=
  let point := next queue.head
  if point ≠ queue.tail then do
    let queue ← queue.store queue.head data
    some ({ queue with head := point }, 0)
  else some (queue, -1)

/-- The third component is what is stored to `*data`. -/
def queuePop (queue : Queue) : Option (Queue × Int × Option Data) :=
  if queue.head ≠ queue.tail then do
    let data ← queue.load queue.tail
    some ({ queue with tail := next queue.tail }, 0, some data)
  else some (queue, -1, none)

/-- `queue_init`; the buffer keeps what it holds. -/
def queueInit (queue : Queue) : Queue := { queue with head := 0, tail := 0 }

/-! The accepted values that have not been popped. -/

variable {queue queue' : Queue} {waiting : List Data} {data : Data}

structure Stored (queue : Queue) (waiting : List Data) : Prop where
  cells : Occupies queueBufferMax queue.tail queue.load waiting
  room : waiting.length < queueBufferMax
  head : queue.head = (queue.tail + waiting.length) % queueBufferMax

theorem queueInit_stored (queue : Queue) : Stored (queueInit queue) [] where
  cells := .nil (Nat.zero_lt_succ 31)
  room := by decide
  head := rfl

theorem Stored.tail_lt (h : Stored queue waiting) : queue.tail < queueBufferMax := h.cells.start

theorem Stored.head_lt (h : Stored queue waiting) : queue.head < queueBufferMax := by
  rw [h.head]
  exact Nat.mod_lt _ (by decide)

/-- One cell is left unused, so that a full queue is not taken for an empty one. -/
theorem Stored.full_iff (h : Stored queue waiting) :
    next queue.head = queue.tail ↔ waiting.length = queueBufferMax - 1 := by
  have htail := h.tail_lt
  have hroom := h.room
  rw [h.head]
  unfold next queueBufferMax at *
  omega

theorem Stored.empty_iff (h : Stored queue waiting) : queue.head = queue.tail ↔ waiting = [] := by
  have htail := h.tail_lt
  have hroom := h.room
  rw [h.head, ← List.length_eq_zero_iff]
  unfold queueBufferMax at *
  omega

theorem Queue.store_eq (hi : i < queueBufferMax) (data : Data) :
    ∃ queue', queue.store i data = some queue' ∧ queue'.head = queue.head ∧
      queue'.tail = queue.tail ∧ queue'.load i = some data ∧
      ∀ j, j ≠ i → queue'.load j = queue.load j := by
  refine ⟨_, dif_pos hi, rfl, rfl, ?_, ?_⟩
  · simp [Queue.load, hi]
  · intro j hj
    simp [Queue.load, Ne.symm hj]

/-- The store of `queue_push` is to a cell that the queue does not use. -/
theorem Stored.store (h : Stored queue waiting) (data : Data) :
    ∃ queue', queue.store queue.head data = some queue' ∧ Stored queue' waiting ∧
      queue'.head = queue.head ∧ queue'.tail = queue.tail ∧
      queue'.load queue.head = some data := by
  obtain ⟨queue', hstore, hhead, htail, hload, hother⟩ := queue.store_eq h.head_lt data
  refine ⟨queue', hstore, ⟨?_, h.room, ?_⟩, hhead, htail, hload⟩
  · rw [htail]
    apply h.cells.store h.room
    intro j _ hj
    rw [← h.head] at hj
    exact hother j hj
  · rw [hhead, htail, h.head]

theorem Stored.push (h : Stored queue waiting) (hroom : waiting.length < queueBufferMax - 1)
    (hdata : queue.load queue.head = some data) :
    Stored { queue with head := next queue.head } (waiting ++ [data]) where
  cells := by
    rw [h.head] at hdata
    exact h.cells.push h.room hdata
  room := by
    rw [List.length_append, List.length_singleton]
    omega
  head := by
    rw [List.length_append, List.length_singleton, next, h.head, Nat.mod_add_mod, Nat.add_assoc]

theorem Stored.pop (h : Stored queue (data :: waiting)) :
    Stored { queue with tail := next queue.tail } waiting where
  cells := h.cells.pop
  room := (Nat.lt_succ_self _).trans h.room
  head := by
    rw [h.head, List.length_cons]
    dsimp only
    rw [next, Nat.mod_add_mod, Nat.add_assoc, Nat.add_comm 1]

/-! One call after the other. -/

inductive Call where
  | push (data : Data)
  | pop

/-- The queue with the values that were accepted and those that were popped. -/
structure Calls where
  queue : Queue
  accepted : List Data
  popped : List Data

def callStep (s : Calls) : Call → Option Calls
  | .push data => do
      let (queue, ret) ← queuePush s.queue data
      some { s with queue := queue, accepted := s.accepted ++ if ret = 0 then [data] else [] }
  | .pop => do
      let (queue, _, data) ← queuePop s.queue
      some { s with queue := queue, popped := s.popped ++ data.toList }

theorem queuePush_spec (h : Stored queue waiting) (data : Data) :
    ∃ queue' ret, queuePush queue data = some (queue', ret) ∧
      Stored queue' (waiting ++ if ret = 0 then [data] else []) ∧
      (ret = 0 ∨ ret = -1 ∧ queue' = queue ∧ waiting.length = queueBufferMax - 1) := by
  unfold queuePush
  by_cases hfull : next queue.head = queue.tail
  · refine ⟨queue, -1, by simp [hfull], by simpa using h, .inr ⟨rfl, rfl, h.full_iff.mp hfull⟩⟩
  · obtain ⟨queue', hstore, hstored, hhead, -, hload⟩ := h.store data
    have hroom : waiting.length < queueBufferMax - 1 := by
      have hne := mt h.full_iff.mpr hfull
      have := h.room
      omega
    rw [← hhead] at hload
    have hpushed := hstored.push hroom hload
    rw [hhead] at hpushed
    refine ⟨{ queue' with head := next queue.head }, 0, ?_, by simpa using hpushed, .inl rfl⟩
    simp [hfull, hstore]

theorem queuePop_spec (h : Stored queue waiting) :
    ∃ queue' ret value, queuePop queue = some (queue', ret, value) ∧
      Stored queue' waiting.tail ∧ value = waiting.head? ∧
      (ret = 0 ∧ waiting ≠ [] ∨ ret = -1 ∧ queue' = queue ∧ waiting = []) := by
  unfold queuePop
  cases waiting with
  | nil =>
    have hempty := h.empty_iff.mpr rfl
    exact ⟨queue, -1, none, by simp [hempty], h, rfl, .inr ⟨rfl, rfl, rfl⟩⟩
  | cons first rest =>
    have hne : queue.head ≠ queue.tail := fun heq => List.cons_ne_nil _ _ (h.empty_iff.mp heq)
    have hload : queue.load queue.tail = some first := h.cells.first
    refine ⟨_, 0, some first, by simp [hne, hload], h.pop, rfl, .inl ⟨rfl, List.cons_ne_nil _ _⟩⟩

/-- What is accepted and has not been popped is in the queue, in order. -/
def Calls.Fifo (s : Calls) : Prop :=
  ∃ waiting, Stored s.queue waiting ∧ s.accepted = s.popped ++ waiting

theorem Calls.Fifo.step {s : Calls} (hs : s.Fifo) (call : Call) :
    ∃ t, callStep s call = some t ∧ t.Fifo := by
  obtain ⟨waiting, hstored, horder⟩ := hs
  cases call with
  | push data =>
    obtain ⟨queue', ret, hpush, hstored', -⟩ := queuePush_spec hstored data
    refine ⟨_, by simp only [callStep, hpush, Option.bind_eq_bind, Option.bind_some]; rfl, _,
      hstored', ?_⟩
    rw [horder, List.append_assoc]
  | pop =>
    obtain ⟨queue', ret, value, hpop, hstored', hvalue, -⟩ := queuePop_spec hstored
    refine ⟨_, by simp only [callStep, hpop, Option.bind_eq_bind, Option.bind_some]; rfl, _,
      hstored', ?_⟩
    rw [horder, hvalue, List.append_assoc]
    cases waiting <;> rfl

/-! The loads and stores of one producer and one consumer. -/

/-- Where the producer is in `queue_push`; `point` is the local variable. -/
inductive PushPc where
  | idle
  | test (data : Data) (point : Nat)
  | index (data : Data) (point : Nat)
  | write (data : Data) (point i : Nat)
  | publish (data : Data) (point : Nat)

/-- Where the consumer is in `queue_pop`. With the loaded `head` comes the number
of values accepted when it was loaded. -/
inductive PopPc where
  | idle
  | test (head seen : Nat)
  | index
  | fetch (i : Nat)
  | advance (data : Data)
  | release (data : Data) (tail : Nat)

/-- A call that returned -1: the values accepted and popped when it loaded the
index of the other side, and its own stores. -/
structure Refusal where
  accepted : Nat
  popped : Nat
  stores : Nat

structure Parties where
  queue : Queue
  push : PushPc
  pop : PopPc
  accepted : List Data
  popped : List Data
  pushStores : Nat
  popStores : Nat
  pushRefusals : List Refusal
  popRefusals : List Refusal

inductive Act where
  | push (data : Data)
  | producer
  | pop
  | consumer

/-- The next load or store of a call in progress. -/
def producerStep (s : Parties) : Option Parties :=
  match s.push with
  | .idle => none
  | .test data point =>
      if point ≠ s.queue.tail then some { s with push := .index data point }
      else
        let refusal := ⟨s.accepted.length, s.popped.length, s.pushStores⟩
        some { s with push := .idle, pushRefusals := s.pushRefusals ++ [refusal] }
  | .index data point => some { s with push := .write data point s.queue.head }
  | .write data point i => do
      let queue ← s.queue.store i data
      some { s with queue := queue, push := .publish data point, pushStores := s.pushStores + 1 }
  | .publish data point =>
      some { s with
        queue := { s.queue with head := point }
        push := .idle
        pushStores := s.pushStores + 1
        accepted := s.accepted ++ [data] }

/-- The store to `*data` is in the step that loads the value. -/
def consumerStep (s : Parties) : Option Parties :=
  match s.pop with
  | .idle => none
  | .test head seen =>
      if head ≠ s.queue.tail then some { s with pop := .index }
      else
        let refusal := ⟨seen, s.popped.length, s.popStores⟩
        some { s with pop := .idle, popRefusals := s.popRefusals ++ [refusal] }
  | .index => some { s with pop := .fetch s.queue.tail }
  | .fetch i => do
      let data ← s.queue.load i
      some { s with pop := .advance data, popStores := s.popStores + 1 }
  | .advance data => some { s with pop := .release data s.queue.tail }
  | .release data tail =>
      some { s with
        queue := { s.queue with tail := next tail }
        pop := .idle
        popStores := s.popStores + 1
        popped := s.popped ++ [data] }

/-- A call starts with its load of `head`. -/
def partyStep (s : Parties) : Act → Option Parties
  | .push data =>
      match s.push with
      | .idle => some { s with push := .test data (next s.queue.head), pushStores := 0 }
      | _ => none
  | .producer => producerStep s
  | .pop =>
      match s.pop with
      | .idle => some { s with pop := .test s.queue.head s.accepted.length, popStores := 0 }
      | _ => none
  | .consumer => consumerStep s

def Parties.start (queue : Queue) : Parties where
  queue := queueInit queue
  push := .idle
  pop := .idle
  accepted := []
  popped := []
  pushStores := 0
  popStores := 0
  pushRefusals := []
  popRefusals := []

/-- What the producer knows. Room, once seen, does not go away: the consumer only
makes more of it. -/
def PushPc.Agrees (queue : Queue) (waiting : List Data) (stores : Nat) : PushPc → Prop
  | .idle => True
  | .test _ point => point = next queue.head ∧ stores = 0
  | .index _ point => point = next queue.head ∧ waiting.length < queueBufferMax - 1
  | .write _ point i =>
      point = next queue.head ∧ waiting.length < queueBufferMax - 1 ∧ i = queue.head
  | .publish data point =>
      point = next queue.head ∧ waiting.length < queueBufferMax - 1 ∧
        queue.load queue.head = some data

/-- What the consumer knows. The loaded `head` may be old: it is where the queue
ended when `seen` values had been accepted. -/
def PopPc.Agrees (queue : Queue) (waiting : List Data) (popped stores : Nat) : PopPc → Prop
  | .idle => True
  | .test head seen =>
      popped ≤ seen ∧ seen ≤ popped + waiting.length ∧
        head = (queue.tail + (seen - popped)) % queueBufferMax ∧ stores = 0
  | .index => waiting ≠ []
  | .fetch i => waiting ≠ [] ∧ i = queue.tail
  | .advance data => waiting.head? = some data
  | .release data tail => waiting.head? = some data ∧ tail = queue.tail

structure Sound (s : Parties) (waiting : List Data) : Prop where
  stored : Stored s.queue waiting
  order : s.accepted = s.popped ++ waiting
  push : s.push.Agrees s.queue waiting s.pushStores
  pop : s.pop.Agrees s.queue waiting s.popped.length s.popStores
  pushRefused : ∀ r ∈ s.pushRefusals, r.accepted = r.popped + (queueBufferMax - 1) ∧ r.stores = 0
  popRefused : ∀ r ∈ s.popRefusals, r.accepted = r.popped ∧ r.stores = 0

variable {s t : Parties} {pc : PushPc} {pc' : PopPc} {taken stores : Nat}

/-- The producer does not notice that the oldest value goes. -/
theorem PushPc.Agrees.popped (h : pc.Agrees queue (data :: waiting) stores) :
    pc.Agrees { queue with tail := next queue.tail } waiting stores := by
  cases pc with
  | idle => trivial
  | test d point => exact h
  | index d point => exact ⟨h.1, (Nat.lt_succ_self _).trans h.2⟩
  | write d point i => exact ⟨h.1, (Nat.lt_succ_self _).trans h.2.1, h.2.2⟩
  | publish d point => exact ⟨h.1, (Nat.lt_succ_self _).trans h.2.1, h.2.2⟩

/-- The consumer looks at `tail` and at the oldest value only. -/
theorem PopPc.Agrees.tail_eq (h : pc'.Agrees queue waiting taken stores)
    (htail : queue'.tail = queue.tail) : pc'.Agrees queue' waiting taken stores := by
  cases pc' with
  | idle => trivial
  | test head seen => exact ⟨h.1, h.2.1, htail ▸ h.2.2.1, h.2.2.2⟩
  | index => exact h
  | fetch i => exact ⟨h.1, htail ▸ h.2⟩
  | advance d => exact h
  | release d tail => exact ⟨h.1, htail ▸ h.2⟩

theorem PopPc.Agrees.pushed (h : pc'.Agrees queue waiting taken stores) (data : Data) :
    pc'.Agrees queue (waiting ++ [data]) taken stores := by
  cases pc' with
  | idle => trivial
  | test head seen =>
    refine ⟨h.1, h.2.1.trans ?_, h.2.2⟩
    rw [List.length_append]
    omega
  | index => exact List.append_ne_nil_of_left_ne_nil h _
  | fetch i => exact ⟨List.append_ne_nil_of_left_ne_nil h.1 _, h.2⟩
  | advance d =>
    rw [PopPc.Agrees, List.head?_append, show waiting.head? = some d from h, Option.some_or]
  | release d tail =>
    rw [PopPc.Agrees, List.head?_append, show waiting.head? = some d from h.1, Option.some_or]
    exact ⟨rfl, h.2⟩

/-- A call in progress always has a next step, and it keeps the invariant. -/
theorem Sound.producer (hs : Sound s waiting) (hbusy : s.push ≠ .idle) :
    ∃ t waiting', producerStep s = some t ∧ Sound t waiting' := by
  have hpush := hs.push
  unfold producerStep
  cases hpc : s.push with
  | idle => exact absurd hpc hbusy
  | test data point =>
    rw [hpc] at hpush
    obtain ⟨hpoint, hstores⟩ := hpush
    by_cases hfull : point = s.queue.tail
    · refine ⟨_, waiting, if_neg (not_not_intro hfull), hs.stored, hs.order, trivial, hs.pop, ?_,
        hs.popRefused⟩
      intro r hr
      rcases List.mem_append.mp hr with hold | hnew
      · exact hs.pushRefused r hold
      · rw [List.mem_singleton.mp hnew]
        rw [hpoint] at hfull
        refine ⟨?_, hstores⟩
        rw [hs.order, List.length_append, hs.stored.full_iff.mp hfull]
    · rw [hpoint] at hfull
      have hlength : waiting.length < queueBufferMax - 1 := by
        have hne := mt hs.stored.full_iff.mpr hfull
        have := hs.stored.room
        omega
      exact ⟨_, waiting, if_pos (hpoint ▸ hfull), hs.stored, hs.order, ⟨hpoint, hlength⟩, hs.pop,
        hs.pushRefused, hs.popRefused⟩
  | index data point =>
    rw [hpc] at hpush
    exact ⟨_, waiting, rfl, hs.stored, hs.order, ⟨hpush.1, hpush.2, rfl⟩, hs.pop, hs.pushRefused,
      hs.popRefused⟩
  | write data point i =>
    rw [hpc] at hpush
    obtain ⟨hpoint, hroom, rfl⟩ := hpush
    obtain ⟨queue', hstore, hstored, hhead, htail, hload⟩ := hs.stored.store data
    simp only [hstore, Option.bind_eq_bind, Option.bind_some]
    refine ⟨_, waiting, rfl, hstored, hs.order, ⟨?_, hroom, ?_⟩, hs.pop.tail_eq htail,
      hs.pushRefused, hs.popRefused⟩
    · rw [hhead]
      exact hpoint
    · rw [hhead]
      exact hload
  | publish data point =>
    rw [hpc] at hpush
    obtain ⟨rfl, hroom, hload⟩ := hpush
    refine ⟨_, waiting ++ [data], rfl, hs.stored.push hroom hload, ?_, trivial,
      (hs.pop.pushed data).tail_eq rfl, hs.pushRefused, hs.popRefused⟩
    rw [hs.order, List.append_assoc]

theorem Sound.consumer (hs : Sound s waiting) (hbusy : s.pop ≠ .idle) :
    ∃ t waiting', consumerStep s = some t ∧ Sound t waiting' := by
  have hpop := hs.pop
  unfold consumerStep
  cases hpc : s.pop with
  | idle => exact absurd hpc hbusy
  | test head seen =>
    rw [hpc] at hpop
    obtain ⟨hle, hseen, hhead, hstores⟩ := hpop
    have htail := hs.stored.tail_lt
    have hlength := hs.stored.room
    by_cases hempty : head = s.queue.tail
    · refine ⟨_, waiting, if_neg (not_not_intro hempty), hs.stored, hs.order, hs.push, trivial,
        hs.pushRefused, ?_⟩
      intro r hr
      rcases List.mem_append.mp hr with hold | hnew
      · exact hs.popRefused r hold
      · rw [List.mem_singleton.mp hnew]
        refine ⟨?_, hstores⟩
        -- `head` is `seen - popped` cells behind `tail`, and less than a round
        rw [hempty] at hhead
        unfold queueBufferMax at *
        dsimp only
        omega
    · refine ⟨_, waiting, if_pos hempty, hs.stored, hs.order, hs.push, ?_, hs.pushRefused,
        hs.popRefused⟩
      rintro rfl
      apply hempty
      have hzero : seen - s.popped.length = 0 := by
        rw [List.length_nil] at hseen
        omega
      rw [hhead, hzero, add_zero, Nat.mod_eq_of_lt htail]
  | index =>
    rw [hpc] at hpop
    exact ⟨_, waiting, rfl, hs.stored, hs.order, hs.push, ⟨hpop, rfl⟩, hs.pushRefused,
      hs.popRefused⟩
  | fetch i =>
    rw [hpc] at hpop
    obtain ⟨hne, rfl⟩ := hpop
    obtain ⟨first, rest, rfl⟩ := List.exists_cons_of_ne_nil hne
    have hload : s.queue.load s.queue.tail = some first := hs.stored.cells.first
    simp only [hload, Option.bind_eq_bind, Option.bind_some]
    exact ⟨_, first :: rest, rfl, hs.stored, hs.order, hs.push, rfl, hs.pushRefused,
      hs.popRefused⟩
  | advance data =>
    rw [hpc] at hpop
    exact ⟨_, waiting, rfl, hs.stored, hs.order, hs.push, ⟨hpop, rfl⟩, hs.pushRefused,
      hs.popRefused⟩
  | release data tail =>
    rw [hpc] at hpop
    obtain ⟨hfirst, rfl⟩ := hpop
    obtain ⟨rest, rfl⟩ := List.head?_eq_some_iff.mp hfirst
    refine ⟨_, rest, rfl, hs.stored.pop, ?_, hs.push.popped, trivial, hs.pushRefused,
      hs.popRefused⟩
    rw [hs.order, List.append_assoc]
    rfl

theorem Sound.step (hs : Sound s waiting) {act : Act} (hstep : partyStep s act = some t) :
    ∃ waiting', Sound t waiting' := by
  cases act with
  | push data =>
    simp only [partyStep] at hstep
    split at hstep
    · cases hstep
      exact ⟨waiting, hs.stored, hs.order, ⟨rfl, rfl⟩, hs.pop, hs.pushRefused, hs.popRefused⟩
    · cases hstep
  | producer =>
    have hbusy : s.push ≠ .idle := by
      intro hidle
      simp [partyStep, producerStep, hidle] at hstep
    obtain ⟨t', waiting', ht', hsound⟩ := hs.producer hbusy
    obtain rfl : t' = t := Option.some.inj (ht'.symm.trans hstep)
    exact ⟨waiting', hsound⟩
  | pop =>
    simp only [partyStep] at hstep
    split at hstep
    · cases hstep
      have hlength := congrArg List.length hs.order
      rw [List.length_append] at hlength
      refine ⟨waiting, hs.stored, hs.order, hs.push, ⟨?_, hlength.le, ?_, rfl⟩, hs.pushRefused,
        hs.popRefused⟩
      · exact hlength ▸ Nat.le_add_right _ _
      · rw [hs.stored.head, hlength, Nat.add_sub_cancel_left]
    · cases hstep
  | consumer =>
    have hbusy : s.pop ≠ .idle := by
      intro hidle
      simp [partyStep, consumerStep, hidle] at hstep
    obtain ⟨t', waiting', ht', hsound⟩ := hs.consumer hbusy
    obtain rfl : t' = t := Option.some.inj (ht'.symm.trans hstep)
    exact ⟨waiting', hsound⟩

theorem start_sound (queue : Queue) : Sound (Parties.start queue) [] where
  stored := queueInit_stored queue
  order := rfl
  push := trivial
  pop := trivial
  pushRefused _ hr := absurd hr List.not_mem_nil
  popRefused _ hr := absurd hr List.not_mem_nil

/-- A lossless queue of 31 entries, as the caller of `queue_push` or `queue_pop`
sees it in state `s`. -/
structure Calls.Lossless (s : Calls) (waiting : List Data) : Prop where
  head : s.queue.head < queueBufferMax
  tail : s.queue.tail < queueBufferMax
  order : s.accepted = s.popped ++ waiting
  push : ∀ data, ∃ queue' ret, queuePush s.queue data = some (queue', ret) ∧
    (ret = 0 ∨ ret = -1 ∧ queue' = s.queue ∧ waiting.length = queueBufferMax - 1)
  pop : ∃ queue' ret, queuePop s.queue = some (queue', ret, waiting.head?) ∧
    (ret = 0 ∧ waiting ≠ [] ∨ ret = -1 ∧ queue' = s.queue ∧ waiting = [])

/-- The same between the loads and stores of two calls; a call in progress is
never stuck at an access outside of the buffer. -/
structure Parties.Lossless (s : Parties) (waiting : List Data) : Prop where
  head : s.queue.head < queueBufferMax
  tail : s.queue.tail < queueBufferMax
  order : s.accepted = s.popped ++ waiting
  pushRefused : ∀ r ∈ s.pushRefusals, r.accepted = r.popped + (queueBufferMax - 1) ∧ r.stores = 0
  popRefused : ∀ r ∈ s.popRefusals, r.accepted = r.popped ∧ r.stores = 0
  producer : s.push ≠ .idle → ∃ t, partyStep s .producer = some t
  consumer : s.pop ≠ .idle → ∃ t, partyStep s .consumer = some t

theorem Calls.Fifo.lossless {s : Calls} (hs : s.Fifo) : ∃ waiting, s.Lossless waiting := by
  obtain ⟨waiting, hstored, horder⟩ := hs
  refine ⟨waiting, hstored.head_lt, hstored.tail_lt, horder, fun data => ?_, ?_⟩
  · obtain ⟨queue', ret, hpush, -, hret⟩ := queuePush_spec hstored data
    exact ⟨queue', ret, hpush, hret⟩
  · obtain ⟨queue', ret, value, hpop, -, rfl, hret⟩ := queuePop_spec hstored
    exact ⟨queue', ret, hpop, hret⟩

theorem Sound.lossless (hs : Sound s waiting) : s.Lossless waiting where
  head := hs.stored.head_lt
  tail := hs.stored.tail_lt
  order := hs.order
  pushRefused := hs.pushRefused
  popRefused := hs.popRefused
  producer hbusy := by
    obtain ⟨t, -, hstep, -⟩ := hs.producer hbusy
    exact ⟨t, hstep⟩
  consumer hbusy := by
    obtain ⟨t, -, hstep, -⟩ := hs.consumer hbusy
    exact ⟨t, hstep⟩

/-- From `queue_init` on, for every sequence of calls and for every interleaving
of one producer with one consumer. -/
theorem queue_is_lossless_fifo (queue : Queue) :
    (∀ calls, ∃ s waiting,
      runInputs callStep anyStep calls ⟨queueInit queue, [], []⟩ = some s ∧ s.Lossless waiting) ∧
    ∀ s, Reaches partyStep anyStep (Parties.start queue) s → ∃ waiting, s.Lossless waiting := by
  constructor
  · intro calls
    let inv : List Call → Calls → Prop := fun _ s => s.Fifo
    have hstep : ∀ call rest s, inv (call :: rest) s →
        ∃ t, (if anyStep s call then callStep s call else none) = some t ∧ inv rest t := by
      intro call rest s hs
      have hany : anyStep s call := trivial
      rw [if_pos hany]
      exact Calls.Fifo.step hs call
    have hstart : inv calls ⟨queueInit queue, [], []⟩ := ⟨[], queueInit_stored queue, rfl⟩
    obtain ⟨s, hrun, hfifo⟩ := foldlM_invariant hstep calls _ hstart
    obtain ⟨waiting, hlossless⟩ := Calls.Fifo.lossless hfifo
    exact ⟨s, waiting, hrun, hlossless⟩
  · intro s hrun
    have hsound : ∃ waiting, Sound s waiting := by
      apply hrun.invariant (fun s => ∃ waiting, Sound s waiting) ⟨[], start_sound queue⟩
      rintro s act t ⟨waiting, hs⟩ _ hstep
      exact hs.step hstep
    obtain ⟨waiting, hs⟩ := hsound
    exact ⟨waiting, hs.lossless⟩

def wholePush (i : Nat) : List Act := Act.push (.ofNat 32 i) :: List.replicate 4 .producer

def wholePop : List Act := Act.pop :: List.replicate 5 .consumer

/-- The queue is filled. One push is refused, and another one that loads `tail` while
the consumer is about to change it; two more values go round the ring. -/
def roundTheRing : List Act :=
  (List.range 31).flatMap wholePush ++ [Act.push 31, .producer] ++
    [Act.pop, .consumer, Act.push 31, .consumer, .consumer, .producer, .consumer, .consumer] ++
    wholePush 31 ++ wholePop ++ wholePush 32

theorem roundTheRing_is_fifo :
    ∃ s waiting, runInputs partyStep anyStep roundTheRing (Parties.start ⟨.replicate 32 0, 0, 0⟩) =
        some s ∧ s.accepted.length = 33 ∧ s.popped = [0, 1] ∧ s.pushRefusals.length = 2 ∧
      s.queue.head = 1 ∧ s.Lossless waiting := by
  have hrun : (runInputs partyStep anyStep roundTheRing
      (Parties.start ⟨.replicate 32 0, 0, 0⟩)).map (fun s =>
        (s.accepted.length, s.popped, s.pushRefusals.length, s.queue.head)) =
      some (33, [0, 1], 2, 1) := by decide +kernel
  obtain ⟨s, hs, hends⟩ := Option.map_eq_some_iff.mp hrun
  obtain ⟨waiting, hlossless⟩ :=
    (queue_is_lossless_fifo ⟨.replicate 32 0, 0, 0⟩).2 s (.of_runInputs hs)
  simp only [Prod.mk.injEq] at hends
  obtain ⟨haccepted, hpopped, hrefusals, hhead⟩ := hends
  exact ⟨s, waiting, hs, haccepted, hpopped, hrefusals, hhead, hlossless⟩

end PosixRtos.Kernel.EventQueue
