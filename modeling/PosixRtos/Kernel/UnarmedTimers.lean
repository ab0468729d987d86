import PosixRtos.Heap.History
import PosixRtos.Kernel.Countdown
import PosixRtos.Kernel.TimerSettime

/-! Timers that nobody has armed. `timer_create` puts the block that `malloc` returns
into `timer_list` without a time plan: the timer thread counts down what the last
owner of the block has left there. -/
namespace PosixRtos.Kernel

open PosixRtos.Library.Runs PosixRtos.Library.ByteMemory PosixRtos.Heap

structure Sigevent where
  flag : BitVec 32
  sigevNotify : BitVec 32
  sigevSigno : BitVec 32
  sigevValue : BitVec 32
  sigevNotifyFunction : BitVec 32
  sigevNotifyAttributes : BitVec 32

def Sigevent.bytes (evp : Sigevent) : List Byte :=
  [evp.flag, evp.sigevNotify, evp.sigevSigno, evp.sigevValue, evp.sigevNotifyFunction,
    evp.sigevNotifyAttributes].flatMap fun field => wordBytes field.toNat

def sigevThread : BitVec 32 := 3

def clockRealtime : BitVec 32 := 0

/-! A `struct __timer`: the links, the clock, the time plan and the notification. -/

def clockidField : Nat := 8
def igeventField : Nat := 28
def sizeofTimer : Nat := 52

/-- What `__timer_create` writes into the block, beside the links. -/
def fillTimer (memory : Memory) (timer : Nat) (clockid : BitVec 32) (evp : Sigevent) : Memory :=
  let memory := write memory (timer + igeventField) evp.bytes
  store32 memory (timer + clockidField) clockid.toNat

/-- A timer since its creation: the plan that its block held, the visits, those of
them that called its notify function, and whether `timer_settime` was called. -/
structure TimerHistory where
  found : Itimerspect
  visits : Nat
  fired : List Nat
  armed : Bool

/-- `blocks` are the blocks of the timers, latest first. -/
structure TimerWorld where
  allocator : Allocator
  memory : Memory
  blocks : List Nat
  system : TimerSystem
  history : TimerId → TimerHistory

/-- `write` is a store of anybody outside of the timers: into an object of its own,
or into the header of a block. -/
inductive WorldAct where
  | heap (act : HeapAct)
  | write (a : Nat) (bs : List Byte)
  | timerCreate (clockid : BitVec 32) (evp : Option Sigevent)
  | timer (act : TimerAct)

def TimerAct.isSettime (timer : TimerId) : TimerAct → Bool
  | .settime t _ => t = timer
  | _ => false

def TimerHistory.observe (h : TimerHistory) (timer : TimerId) (s : TimerSystem) (act : TimerAct)
    (s' : TimerSystem) : TimerHistory :=
  let w := Watch.observe timer ⟨s, h.visits, h.fired⟩ act s'
  { h with visits := w.visits, fired := w.fired, armed := h.armed || act.isSettime timer }

/-- A step of the timers, with what it adds to their histories. -/
def TimerWorld.timerAct (board : Board) (timerSem : Nat) (timerThread : Tid) (w : TimerWorld)
    (act : TimerAct) : Option TimerWorld := do
  let system ← timerStep board timerSem timerThread w.system act
  some { w with
    system := system
    history := fun timer => (w.history timer).observe timer w.system act system }

/-- `__timer_create` behind `malloc`. The block is the caller's alone until
`list_insert_tail`, which runs with the interrupts off. -/
def TimerWorld.insert (board : Board) (timerSem : Nat) (timerThread : Tid) (w : TimerWorld)
    (timer : Nat) (clockid : BitVec 32) (evp : Sigevent) : Option TimerWorld := do
  let memory := fillTimer w.memory timer clockid evp
  let plan := itimerspectAt memory (timer + itimerspectField)
  let system ← timerStep board timerSem timerThread w.system (.create plan)
  let found := itimerspectAt w.memory (timer + itimerspectField)
  some { w with
    memory := memory
    blocks := timer :: w.blocks
    system := system
    history := Function.update w.history w.system.timers.count ⟨found, 0, [], false⟩ }

/-- `timer_create`: the world, `*timerid` and the result. A `malloc` that fails an
assertion does not return. -/
def timerCreate (board : Board) (timerSem : Nat) (timerThread : Tid) (w : TimerWorld)
    (clockid : BitVec 32) (evp : Option Sigevent) : Option (TimerWorld × Nat × Int) :=
  if clockid ≠ clockRealtime then some (w, 0, -EINVAL)
  else
    match evp with
    | none => some (w, 0, -EINVAL)
    | some evp =>
        if evp.sigevNotify = sigevThread then
          match malloc w.allocator.heap sizeofTimer with
          | .error _ => none
          | .ok (heap, none) =>
              some ({ w with allocator := { w.allocator with heap := heap } }, 0, 0)
          | .ok (heap, some timer) => do
              let w := { w with allocator := ⟨heap, timer :: w.allocator.live⟩ }
              let w ← w.insert board timerSem timerThread timer clockid evp
              some (w, timer, 0)
        else some (w, 0, 0)

/-- Timers are never deleted: their blocks stay allocated. -/
def worldStep (board : Board) (timerSem : Nat) (timerThread : Tid) (w : TimerWorld) :
    WorldAct → Option TimerWorld
  | .heap (.malloc size) =>
      (heapStep w.allocator (.malloc size)).map fun allocator => { w with allocator := allocator }
  | .heap (.free mem) =>
      if mem ∈ w.blocks then none
      else (heapStep w.allocator (.free mem)).map fun allocator => { w with allocator := allocator }
  | .write a bs =>
      if ∀ timer ∈ w.blocks, a + bs.length ≤ timer ∨ timer + sizeofTimer ≤ a then
        some { w with memory := write w.memory a bs }
      else none
  | .timerCreate clockid evp =>
      (timerCreate board timerSem timerThread w clockid evp).map Prod.fst
  | .timer (.create _) => none
  | .timer act => w.timerAct board timerSem timerThread act

variable {board : Board} {timerSem : Nat} {timerThread : Tid} {w w' w₀ : TimerWorld}
  {memory : Memory} {act : WorldAct} {timer : TimerId}

/-- The stores into the block miss the time plan. -/
theorem itimerspectAt_fillTimer (memory : Memory) (block : Nat) (clockid : BitVec 32)
    (evp : Sigevent) : itimerspectAt (fillTimer memory block clockid evp)
      (block + itimerspectField) = itimerspectAt memory (block + itimerspectField) := by
  rw [itimerspectAt_eq_iff]
  intro i hi
  have hlow : ¬ block + itimerspectField + i < block + clockidField + 4 := by
    unfold itimerspectField clockidField
    omega
  have hhigh : block + itimerspectField + i < block + igeventField := by
    unfold itimerspectField igeventField sizeofItimerspect at *
    omega
  unfold fillTimer store32
  rw [write_outside (by rw [length_wordBytes]; omega), write_outside (.inl hhigh)]

/-! The steps of a run. -/

/-- The timers that nobody has armed count down what their blocks held. -/
structure CountsFound (board : Board) (w : TimerWorld) : Prop where
  walk : TimerWalk w.system.timers w.system.pc
  unarmed : ∀ timer < w.system.timers.count, (w.history timer).armed = false →
    ∃ start, Watched board timer (w.history timer).found.itInterval.tvNsec
      (w.history timer).found.itValue.tvNsec start
      ⟨w.system, (w.history timer).visits, (w.history timer).fired⟩

theorem TimerHistory.observe_watch (h : TimerHistory) (timer : TimerId) (s : TimerSystem)
    (act : TimerAct) (s' : TimerSystem) : Watch.observe timer ⟨s, h.visits, h.fired⟩ act s' =
      ⟨s', (h.observe timer s act s').visits, (h.observe timer s act s').fired⟩ := by
  unfold TimerHistory.observe Watch.observe
  split <;> rfl

theorem CountsFound.timerAct {act : TimerAct} (hw : CountsFound board w)
    (hact : ∀ plan, act ≠ .create plan)
    (hs : w.timerAct board timerSem timerThread act = some w') : CountsFound board w' := by
  obtain ⟨system, hstep, hs⟩ := Option.bind_eq_some_iff.mp hs
  cases hs
  have hmove := timerStep_move hstep
  refine ⟨hw.walk.move hmove, fun timer ht hunarmed => ?_⟩
  dsimp only at ht hunarmed ⊢
  rw [hmove.count_eq hact] at ht
  obtain ⟨hunarmed, hother⟩ := Bool.or_eq_false_iff.mp hunarmed
  obtain ⟨start, hwatch⟩ := hw.unarmed timer ht hunarmed
  refine ⟨start, hwatch.step ?_
    (Option.map_eq_some_iff.mpr ⟨system, hstep, TimerHistory.observe_watch ..⟩)⟩
  cases act with
  | settime t plan => simpa [NotRearmed, TimerAct.isSettime] using hother
  | _ => trivial

/-- A new timer is nowhere in the pass, and counts down the plan of its block. -/
theorem CountsFound.insert {block : Nat} {clockid : BitVec 32} {evp : Sigevent}
    (hw : CountsFound board w)
    (hs : w.insert board timerSem timerThread block clockid evp = some w') :
    CountsFound board w' := by
  simp only [TimerWorld.insert, itimerspectAt_fillTimer, Option.bind_eq_bind,
    Option.bind_eq_some_iff, Option.some.injEq] at hs
  obtain ⟨system, hstep, rfl⟩ := hs
  have hwalk := hw.walk.move (timerStep_move hstep)
  refine ⟨hwalk, fun timer ht hunarmed => ?_⟩
  dsimp only at ht hunarmed ⊢
  by_cases hnew : timer = w.system.timers.count
  · subst hnew
    rw [Function.update_self]
    have hstart := watched_start board hwalk ht
    cases hstep
    have hplan : (rawTimerCreate w.system.timers
        (itimerspectAt w.memory (block + itimerspectField))).itimerspect w.system.timers.count =
          itimerspectAt w.memory (block + itimerspectField) := Function.update_self ..
    have hplace : w.system.pc ≠ .notify w.system.timers.count := by
      intro hpc
      exact absurd (hw.walk.place w.system.timers.count (by simp [hpc, TimerPc.timer])) (by simp)
    dsimp only at hstart ⊢
    rw [settled_of_ne hplace, hplan] at hstart
    exact ⟨_, hstart⟩
  · have hold : timer < w.system.timers.count := by
      cases hstep
      exact lt_of_le_of_ne (Nat.le_of_lt_succ ht) hnew
    rw [Function.update_of_ne hnew] at hunarmed ⊢
    obtain ⟨start, hwatch⟩ := hw.unarmed timer hold hunarmed
    refine ⟨start, hwatch.step ?_ (Option.map_eq_some_iff.mpr ⟨system, hstep, rfl⟩)⟩
    trivial

/-- What leaves the timers alone. -/
theorem CountsFound.elsewhere (hw : CountsFound board w) (hsystem : w'.system = w.system)
    (hhistory : w'.history = w.history) : CountsFound board w' := by
  refine ⟨hsystem ▸ hw.walk, ?_⟩
  rw [hsystem, hhistory]
  exact hw.unarmed

theorem CountsFound.create {clockid : BitVec 32} {evp : Option Sigevent} {timerid : Nat}
    {ret : Int} (hw : CountsFound board w)
    (hs : timerCreate board timerSem timerThread w clockid evp = some (w', timerid, ret)) :
    CountsFound board w' := by
  unfold timerCreate at hs
  split at hs
  · cases hs
    exact hw
  cases evp with
  | none =>
    cases hs
    exact hw
  | some evp =>
    dsimp only at hs
    split at hs
    swap
    · cases hs
      exact hw
    split at hs
    · cases hs
    · cases hs
      exact hw.elsewhere rfl rfl
    · next heap block hmalloc =>
      obtain ⟨w₁, hinsert, hs⟩ := Option.bind_eq_some_iff.mp hs
      cases hs
      refine CountsFound.insert ?_ hinsert
      exact hw.elsewhere rfl rfl

theorem CountsFound.step (hw : CountsFound board w)
    (hs : worldStep board timerSem timerThread w act = some w') : CountsFound board w' := by
  cases act with
  | heap act =>
    cases act with
    | malloc size =>
      obtain ⟨allocator, -, rfl⟩ := Option.map_eq_some_iff.mp hs
      exact hw.elsewhere rfl rfl
    | free mem =>
      unfold worldStep at hs
      dsimp only at hs
      split at hs
      · cases hs
      · obtain ⟨allocator, -, rfl⟩ := Option.map_eq_some_iff.mp hs
        exact hw.elsewhere rfl rfl
  | write a bs =>
    unfold worldStep at hs
    dsimp only at hs
    split at hs
    · cases hs
      exact hw.elsewhere rfl rfl
    · cases hs
  | timerCreate clockid evp =>
    obtain ⟨⟨w₁, timerid, ret⟩, hcreate, rfl⟩ := Option.map_eq_some_iff.mp hs
    exact hw.create hcreate
  | timer act =>
    cases act with
    | create plan => cases hs
    | _ => exact hw.timerAct (fun _ h => by cases h) hs

/-- A timer that nobody has armed has called its notify function exactly if its
block held a time that is a positive multiple of the period, and the passes have
counted it out. -/
theorem unarmed_silent_iff (hperiod : board.tickPeriod < 2 ^ 32)
    (hinit : w₀.system.Initial board timerSem)
    (hrun : Reaches (worldStep board timerSem timerThread) anyStep w₀ w)
    (ht : timer < w.system.timers.count) (hunarmed : (w.history timer).armed = false) :
    (w.history timer).fired = [] ↔
      (w.history timer).found.itValue.tvNsec.toInt ≤ 0 ∨
      ¬ board.tickPeriod ∣ (w.history timer).found.itValue.tvNsec.toNat ∨
      (w.history timer).visits <
        (w.history timer).found.itValue.tvNsec.toNat / board.tickPeriod := by
  have hstart : CountsFound board w₀ := by
    refine ⟨hinit.walk, fun timer ht => ?_⟩
    rw [hinit.count] at ht
    exact absurd ht (Nat.not_lt_zero timer)
  have hw : CountsFound board w := hrun.invariant _ hstart fun _ _ _ hw _ hs => hw.step hs
  obtain ⟨start, hwatch⟩ := hw.unarmed timer ht hunarmed
  exact hwatch.silent_iff hperiod

/-- The booted machine with a heap of its own. -/
def timerWorld : Option TimerWorld :=
  timerBoot.map fun system => {
    allocator := smallHeap
    memory := fun _ => 0
    blocks := []
    system := system
    history := fun _ => ⟨⟨⟨0, 0⟩, ⟨0, 0⟩⟩, 0, [], false⟩ }

/-- A block of 52 bytes is used with `tvNsec` in its seventh word and given back. A
timer is created in it, and one pass follows. -/
def recycledBlock (tvNsec : Nat) : List WorldAct :=
  [.heap (.malloc 52), .write 0x20000028 (wordBytes tvNsec), .heap (.free 0x20000010),
   .timer .semWait, .timerCreate 0 (some ⟨0, 3, 0, 0, 0x08000101, 0⟩), .timer .timetick,
   .timer .semWait, .timer .visit]

theorem recycledBlock_silent :
    ∃ w₀ w, timerWorld = some w₀ ∧
      runInputs (worldStep discoveryBoard 0 2) anyStep (recycledBlock 0xffffffff) w₀ = some w ∧
      (w.history 0).visits = 1 ∧
      ((w.history 0).fired = [] ↔ (w.history 0).found.itValue.tvNsec.toInt ≤ 0 ∨
        ¬ 1 ∣ (w.history 0).found.itValue.tvNsec.toNat ∨
        (w.history 0).visits < (w.history 0).found.itValue.tvNsec.toNat / 1) := by
  have hfacts : (timerWorld.bind fun w₀ => runInputs (worldStep discoveryBoard 0 2) anyStep
      (recycledBlock 0xffffffff) w₀).map (fun w => (w.system.timers.count, (w.history 0).armed,
        (w.history 0).visits)) = some (1, false, 1) := by decide +kernel
  obtain ⟨w, hw, heq⟩ := Option.map_eq_some_iff.mp hfacts
  obtain ⟨w₀, hw₀, hrun⟩ := Option.bind_eq_some_iff.mp hw
  obtain ⟨system, hboot, rfl⟩ := Option.map_eq_some_iff.mp hw₀
  simp only [Prod.mk.injEq] at heq
  obtain ⟨hcount, hunarmed, hvisits⟩ := heq
  have hcreated : 0 < w.system.timers.count := by
    rw [hcount]
    exact Nat.one_pos
  exact ⟨_, w, hw₀, hrun, hvisits, unarmed_silent_iff (by decide) (timerBoot_initial hboot)
    (.of_runInputs hrun) hcreated hunarmed⟩

/-- The last owner has left a 1: the first pass calls the notify function of a timer
that nobody has armed. -/
theorem recycled_block_fires :
    ∃ w₀ w, TimerSystem.Initial discoveryBoard 0 w₀.system ∧
      Reaches (worldStep discoveryBoard 0 2) anyStep w₀ w ∧ 0 < w.system.timers.count ∧
      (w.history 0).armed = false ∧ (w.history 0).fired = [1] ∧ w.system.pc = .notify 0 := by
  have hfacts : (timerWorld.bind fun w₀ => runInputs (worldStep discoveryBoard 0 2) anyStep
      (recycledBlock 1) w₀).map (fun w => (w.system.timers.count, (w.history 0).armed,
        (w.history 0).fired, w.system.pc)) = some (1, false, [1], .notify 0) := by decide +kernel
  obtain ⟨w, hw, heq⟩ := Option.map_eq_some_iff.mp hfacts
  obtain ⟨w₀, hw₀, hrun⟩ := Option.bind_eq_some_iff.mp hw
  obtain ⟨system, hboot, rfl⟩ := Option.map_eq_some_iff.mp hw₀
  simp only [Prod.mk.injEq] at heq
  obtain ⟨hcount, hunarmed, hfired, hpc⟩ := heq
  refine ⟨_, w, timerBoot_initial hboot, .of_runInputs hrun, ?_, hunarmed, hfired, hpc⟩
  rw [hcount]
  exact Nat.one_pos

end PosixRtos.Kernel
