import PosixRtos.Kernel.Schedule
import PosixRtos.Kernel.Ticks

/-! The measured load. Each busy tick adds `SCHED_PERIOD / RTOS_SYS_TICK_PERIOD` to
a 16-bit counter, and the end of a window divides by the same number. With a tick
of 1 ms the counter wraps at the 66th busy tick. -/
namespace PosixRtos.Kernel

open PosixRtos.Library.Rings PosixRtos.Library.Runs IntrusiveList

def getCurrentUsage (k : State) : BitVec 16 := k.usage.usage

/-- `min_ticks`, as `sched_init` computes it. -/
def Board.window (board : Board) : Nat := schedPeriod / board.tickPeriod

/-- The current thread is not of type `PTHREAD_TYPE_IDLE`. -/
def State.Busy (k : State) : Prop := ∀ t ∈ k.currentThread, (k.thread t).type ≠ .idle

instance (k : State) : Decidable k.Busy := inferInstanceAs (Decidable (∀ t ∈ k.currentThread, _))

/-- A run with a measurement of its own: the ticks of the current window, those
of them that ended with a busy processor, and the busy ticks of the last window. -/
structure Meter where
  kernel : State
  ticks : Nat
  busy : Nat
  last : Option Nat

/-- A tick ends in `k`. -/
def Meter.count (board : Board) (m : Meter) (k : State) : Meter :=
  let busy := if k.Busy then m.busy + 1 else m.busy
  if m.ticks + 1 = board.window then ⟨k, 0, 0, some busy⟩ else ⟨k, m.ticks + 1, busy, m.last⟩

/-- `sched_proc` returns at once while the scheduler is locked: no tick passes. -/
def meterStep (board : Board) (m : Meter) (op : Op) : Option Meter := do
  let kernel ← step board m.kernel op
  some (if op = .tick ∧ m.kernel.locked ≠ schedIsLocked then m.count board kernel
    else { m with kernel := kernel })

/-- `sched_init` has run, and no thread exists. -/
def Meter.initial (board : Board) (blank : State) : Meter := ⟨schedInit board blank, 0, 0, none⟩

/-- What the four 16-bit fields make of the measurement. -/
structure Measures (window : Nat) (usage : Usage) (ticks busy : Nat) (last : Option Nat) :
    Prop where
  minTicks : usage.minTicks = BitVec.ofNat 16 window
  curTicks : usage.curTicks = BitVec.ofNat 16 ticks
  runCount : usage.runCount = BitVec.ofNat 16 (window * busy)
  within : ticks < window
  busy_le : busy ≤ ticks
  usage : ∀ b ∈ last, b ≤ window ∧ usage.usage.toNat = window * b % 2 ^ 16 / window

variable {board : Board} {blank k k' : State} {L : Head → List Tid} {op : Op} {m m' : Meter}
  {window ticks busy b : Nat} {last : Option Nat} {usage : Usage}

/-- What `sched_proc_cpu_usage` makes of the fields. -/
def Usage.account (usage : Usage) (window : Nat) (busy : Bool) : Usage :=
  let runCount := if busy then usage.runCount + BitVec.ofNat 16 window else usage.runCount
  if usage.minTicks ≤ usage.curTicks + 1 then
    { usage with curTicks := 0, runCount := 0, usage := runCount / usage.minTicks }
  else { usage with curTicks := usage.curTicks + 1, runCount := runCount }

theorem schedProcCpuUsage_eq (hs : schedProcCpuUsage board k = some k') :
    k'.usage = k.usage.account board.window (decide k'.Busy) := by
  have hframe := schedProcCpuUsage_spec hs
  obtain ⟨t, hcur, hs⟩ := Option.bind_eq_some_iff.mp hs
  have hbusy : k'.Busy ↔ (k.thread t).type ≠ .idle := by
    rw [hframe]
    unfold State.Busy
    simp [hcur]
  unfold Usage.account Board.window
  simp only [hbusy, decide_eq_true_eq]
  dsimp only at hs
  by_cases htype : (k.thread t).type ≠ .idle
  · simp only [if_pos htype] at hs ⊢
    split at hs <;> cases hs <;> simp_all
  · simp only [if_neg htype] at hs ⊢
    split at hs <;> cases hs <;> simp_all

theorem foldl_wakeOne_usage (tids : List Tid) (k : State) :
    (tids.foldl wakeOne k).usage = k.usage := by
  induction tids generalizing k with
  | nil => rfl
  | cons t tids ih =>
    rw [List.foldl_cons, ih]
    unfold wakeOne
    dsimp only
    split <;> rfl

/-- The counters of a tick start from those of the tick before. -/
theorem schedProc_usage (hi : Inv k L) (hc : k.CurrentRunnable)
    (hunlocked : k.locked ≠ schedIsLocked) (hs : schedProc board k = some k') :
    k'.usage = k.usage.account board.window (decide k'.Busy) := by
  rcases schedProc_cases hs with ⟨hlocked, -⟩ | ⟨-, k₁, k₂, k₃, h₁, h₂, h₃, husage⟩
  · exact absurd hlocked hunlocked
  obtain ⟨c, L₁, hcur, hev₁, -, -, -⟩ := schedProcCurrentThread_spec hi hc h₁
  have hkeep₁ : k₁.usage = k.usage := by
    obtain ⟨t, -, h₁⟩ := Option.bind_eq_some_iff.mp h₁
    dsimp only at h₁
    split at h₁ <;> cases h₁ <;> rfl
  have hkeep₂ : k₂.usage = k₁.usage := by
    rw [schedWakeupSleepThread_eq hev₁.inv] at h₂
    cases h₂
    exact foldl_wakeOne_usage _ _
  have hkeep₃ : k₃.usage = k₂.usage := by
    have hrest : Rest .start k₂ k₃ := (schedSwitchThread_thread h₃).2.2
    exact hrest.usage.resolve_right (by decide)
  rw [schedProcCpuUsage_eq husage, hkeep₃, hkeep₂, hkeep₁]

/-! The arithmetic of a window. -/

theorem Measures.overflow_iff (hm : Measures window usage ticks busy last)
    (hwindow : window < 2 ^ 16) : usage.minTicks ≤ usage.curTicks + 1 ↔ ticks + 1 = window := by
  have hlt := hm.within
  rw [BitVec.le_def, hm.minTicks, hm.curTicks, BitVec.toNat_add, BitVec.toNat_ofNat,
    BitVec.toNat_ofNat, Nat.mod_eq_of_lt hwindow, Nat.mod_eq_of_lt (hlt.trans hwindow)]
  change window ≤ (ticks + 1) % 2 ^ 16 ↔ _
  rw [Nat.mod_eq_of_lt (show ticks + 1 < 2 ^ 16 by omega)]
  omega

theorem Measures.counted (hm : Measures window usage ticks busy last) (load : Bool) :
    (if load then usage.runCount + BitVec.ofNat 16 window else usage.runCount) =
      BitVec.ofNat 16 (window * (busy + load.toNat)) := by
  cases load with
  | false => simpa using hm.runCount
  | true =>
    rw [if_pos rfl, hm.runCount, ← BitVec.ofNat_add, Bool.toNat_true, Nat.mul_add_one]

/-- The tick that ends a window. -/
theorem Measures.close (hm : Measures window usage ticks busy last) (hwindow : window < 2 ^ 16)
    (hend : ticks + 1 = window) (load : Bool) :
    Measures window (usage.account window load) 0 0 (some (busy + load.toNat)) := by
  unfold Usage.account
  dsimp only
  rw [if_pos ((hm.overflow_iff hwindow).mpr hend), hm.counted]
  refine ⟨hm.minTicks, rfl, rfl, by omega, le_rfl, ?_⟩
  intro b hb
  cases hb
  have hbusy := hm.busy_le
  refine ⟨?_, ?_⟩
  · cases load <;> simp <;> omega
  · simp only [hm.minTicks]
    rw [BitVec.toNat_udiv, BitVec.toNat_ofNat, BitVec.toNat_ofNat, Nat.mod_eq_of_lt hwindow]

/-- The other ticks. -/
theorem Measures.tick (hm : Measures window usage ticks busy last) (hwindow : window < 2 ^ 16)
    (hinside : ticks + 1 ≠ window) (load : Bool) :
    Measures window (usage.account window load) (ticks + 1) (busy + load.toNat) last := by
  have hbusy := hm.busy_le
  have hlt := hm.within
  unfold Usage.account
  dsimp only
  rw [if_neg (mt (hm.overflow_iff hwindow).mp hinside), hm.counted]
  refine ⟨hm.minTicks, ?_, rfl, by omega, ?_, hm.usage⟩
  · simp only [hm.curTicks]
    exact (BitVec.ofNat_add ticks 1).symm
  · cases load <;> simp <;> omega

/-- A window is reported right exactly if its counter has not wrapped. -/
theorem report_iff (hwindow : 0 < window) (b : Nat) :
    window * b % 2 ^ 16 / window = b ↔ window * b < 2 ^ 16 := by
  constructor
  · intro heq
    by_contra hge
    have hwrapped : window * b % 2 ^ 16 < window * b :=
      (Nat.mod_lt _ (by decide)).trans_le (not_lt.mp hge)
    have hlow := Nat.div_lt_of_lt_mul hwrapped
    omega
  · intro hlt
    rw [Nat.mod_eq_of_lt hlt, Nat.mul_div_cancel_left _ hwindow]

/-! The steps of a run. -/

def Meter.Measures (board : Board) (m : Meter) : Prop :=
  Kernel.Measures board.window m.kernel.usage m.ticks m.busy m.last

theorem Meter.Measures.count (hm : m.Measures board) (hwindow : board.window < 2 ^ 16)
    (husage : k.usage = m.kernel.usage.account board.window (decide k.Busy)) :
    (m.count board k).Measures board := by
  have hload : (if k.Busy then m.busy + 1 else m.busy) = m.busy + (decide k.Busy).toNat := by
    by_cases hbusy : k.Busy <;> simp [hbusy]
  unfold Meter.count
  rw [hload]
  dsimp only
  split
  · next hend =>
    change Kernel.Measures _ k.usage 0 0 _
    rw [husage]
    exact Measures.close hm hwindow hend _
  · next hinside =>
    change Kernel.Measures _ k.usage _ _ _
    rw [husage]
    exact Measures.tick hm hwindow hinside _

theorem meterStep_inv (hwindow : board.window < 2 ^ 16) (hi : Inv m.kernel L)
    (hc : m.kernel.CurrentRunnable) (hm : m.Measures board)
    (hstep : meterStep board m op = some m') :
    (∃ L', Inv m'.kernel L' ∧ m'.kernel.CurrentRunnable) ∧ m'.Measures board := by
  obtain ⟨k', hkernel, hm'⟩ := Option.bind_eq_some_iff.mp hstep
  cases hm'
  by_cases hop : op = .tick ∧ m.kernel.locked ≠ schedIsLocked
  · rw [if_pos hop]
    obtain ⟨rfl, hunlocked⟩ := hop
    have husage := schedProc_usage hi hc hunlocked hkernel
    have hkeep : (m.count board k').kernel = k' := by
      unfold Meter.count
      dsimp only
      split <;> rfl
    rw [hkeep]
    exact ⟨step_inv hi hc hkernel, hm.count hwindow husage⟩
  · rw [if_neg hop]
    refine ⟨step_inv hi hc hkernel, ?_⟩
    have hsame : k'.usage = m.kernel.usage := by
      rcases (step_edits hkernel).rest.usage with hsame | htick
      · exact hsame
      · subst htick
        have hlocked : m.kernel.locked = schedIsLocked := by simpa using hop
        rw [schedProc_locked hlocked hkernel]
    change Kernel.Measures _ k'.usage _ _ _
    rw [hsame]
    exact hm

theorem Meter.reaches_inv (hblank : Blank blank) (hpos : 0 < board.window)
    (hwindow : board.window < 2 ^ 16)
    (hrun : Reaches (meterStep board) anyStep (Meter.initial board blank) m) :
    (∃ L, Inv m.kernel L ∧ m.kernel.CurrentRunnable) ∧ m.Measures board := by
  refine hrun.invariant
    (fun m => (∃ L, Inv m.kernel L ∧ m.kernel.CurrentRunnable) ∧ m.Measures board) ?_ ?_
  · refine ⟨⟨_, schedInit_inv hblank, fun t ht => by cases ht⟩, rfl, rfl, rfl, hpos, le_rfl, ?_⟩
    rintro b ⟨⟩
  · rintro m op m' ⟨⟨L, hi, hc⟩, hm⟩ - hstep
    exact meterStep_inv hwindow hi hc hm hstep

/-- With a tick of 5 ms every window is reported right; with one of 1 ms those
with at most 65 busy ticks are, and among these more load is never reported as less. -/
theorem usage_exact_iff (hblank : Blank blank)
    (hperiod : board.tickPeriod = 1 ∨ board.tickPeriod = 5)
    (hrun : Reaches (meterStep board) anyStep (Meter.initial board blank) m)
    (hlast : m.last = some b) :
    ((getCurrentUsage m.kernel).toNat = b ↔ board.tickPeriod = 5 ∨ b ≤ 65) ∧
      ∀ m' b', Reaches (meterStep board) anyStep (Meter.initial board blank) m' →
        m'.last = some b' → b ≤ b' → (board.tickPeriod = 5 ∨ b' ≤ 65) →
        getCurrentUsage m.kernel ≤ getCurrentUsage m'.kernel := by
  have hwindow : board.window = if board.tickPeriod = 5 then 200 else 1000 := by
    unfold Board.window schedPeriod
    rcases hperiod with h | h <;> simp [h]
  have hpos : 0 < board.window := by
    rw [hwindow]
    split <;> decide
  have hword : board.window < 2 ^ 16 := by
    rw [hwindow]
    split <;> decide
  have hexact : ∀ m b, Reaches (meterStep board) anyStep (Meter.initial board blank) m →
      m.last = some b → ((getCurrentUsage m.kernel).toNat = b ↔ board.tickPeriod = 5 ∨ b ≤ 65) := by
    intro m b hrun hlast
    obtain ⟨hle, hreport⟩ := (Meter.reaches_inv hblank hpos hword hrun).2.usage b hlast
    unfold getCurrentUsage
    rw [hreport, report_iff hpos]
    rw [hwindow] at hle ⊢
    split at hle <;> simp_all <;> omega
  refine ⟨hexact m b hrun hlast, fun m' b' hrun' hlast' hle hcond => ?_⟩
  have hcond₀ : board.tickPeriod = 5 ∨ b ≤ 65 := hcond.imp_right fun h => hle.trans h
  rw [BitVec.le_def, (hexact m b hrun hlast).mpr hcond₀, (hexact m' b' hrun' hlast').mpr hcond]
  exact hle

/-- A user thread alone, and `n` ticks. -/
def busyThread (n : Nat) : List Op :=
  [Op.create none ⟨true, 0x20000000⟩, Op.start] ++ List.replicate n Op.tick

theorem shenZhou_usage :
    ∃ m, runInputs (meterStep shenZhouBoard) anyStep (busyThread 200)
        (Meter.initial shenZhouBoard clearedState) = some m ∧
      ((getCurrentUsage m.kernel).toNat = 200 ↔ shenZhouBoard.tickPeriod = 5 ∨ 200 ≤ 65) := by
  have hlast : (runInputs (meterStep shenZhouBoard) anyStep (busyThread 200)
      (Meter.initial shenZhouBoard clearedState)).map Meter.last = some (some 200) := by
    decide +kernel
  obtain ⟨m, hm, hlast⟩ := Option.map_eq_some_iff.mp hlast
  exact ⟨m, hm, (usage_exact_iff clearedState_blank (.inr rfl) (.of_runInputs hm) hlast).1⟩

/-! A machine without an idle thread is busy at every tick. -/

structure State.Loaded (k : State) : Prop where
  inv : ∃ L, Inv k L
  runnable : k.CurrentRunnable
  current : ∃ c, k.currentThread = some c
  unlocked : k.locked ≠ schedIsLocked
  types : ∀ t < k.count, (k.thread t).type ≠ .idle

theorem State.Loaded.isBusy (hk : k.Loaded) : k.Busy := fun t ht => hk.types t (hk.runnable t ht).1

theorem State.Loaded.tick (hk : k.Loaded) : ∃ k', step board k .tick = some k' ∧ k'.Loaded := by
  obtain ⟨L, hi⟩ := hk.inv
  obtain ⟨c, hcur⟩ := hk.current
  obtain ⟨k', v, hproc, hcur'⟩ := schedProc_isSome board hi hk.runnable hcur
  have hstep : step board k .tick = some k' := hproc
  obtain ⟨L', hi', hc'⟩ := step_inv hi hk.runnable hstep
  obtain ⟨_, -, htick⟩ := schedProc_ticked hi hk.runnable hk.unlocked hproc
  refine ⟨k', hstep, ⟨L', hi'⟩, hc', ⟨v, hcur'⟩, ?_, fun t ht => ?_⟩
  · rcases (step_edits hstep).rest.locked with hsame | hop | ⟨_, hop⟩
    · rw [hsame]
      exact hk.unlocked
    · cases hop
    · cases hop
  · rw [htick.count] at ht
    rw [(step_edits hstep).field Thread.type (fun f hwrite x => by cases hwrite <;> rfl) ht]
    exact hk.types t ht

theorem meterStep_tick (board : Board) (m : Meter) (hk : m.kernel.Loaded) :
    ∃ k', k'.Loaded ∧ meterStep board m .tick = some (m.count board k') := by
  obtain ⟨k', hstep, hk'⟩ := hk.tick
  refine ⟨k', hk', ?_⟩
  unfold meterStep
  rw [hstep]
  exact congrArg some (if_pos ⟨rfl, hk.unlocked⟩)

theorem Meter.loaded_ticks (board : Board) (hk : m.kernel.Loaded) (n : Nat)
    (hn : m.ticks + n < board.window) :
    ∃ k', k'.Loaded ∧
      Reaches (meterStep board) anyStep m ⟨k', m.ticks + n, m.busy + n, m.last⟩ := by
  induction n with
  | zero => exact ⟨m.kernel, hk, .refl⟩
  | succ n ih =>
    obtain ⟨k, hk, hrun⟩ := ih (by omega)
    obtain ⟨k', hk', hstep⟩ := meterStep_tick board ⟨k, m.ticks + n, m.busy + n, m.last⟩ hk
    have hinside : m.ticks + n + 1 ≠ board.window := by omega
    have hcount : Meter.count board ⟨k, m.ticks + n, m.busy + n, m.last⟩ k' =
        ⟨k', m.ticks + (n + 1), m.busy + (n + 1), m.last⟩ := by
      unfold Meter.count
      rw [if_pos hk'.isBusy, if_neg hinside]
      rfl
    rw [hcount] at hstep
    exact ⟨k', hk', .tail hrun trivial hstep⟩

/-- So each of its windows is full. -/
theorem Meter.loaded_window (hk : m.kernel.Loaded) (hticks : m.ticks = 0) (hbusy : m.busy = 0)
    (hpos : 0 < board.window) :
    ∃ m', Reaches (meterStep board) anyStep m m' ∧ m'.last = some board.window := by
  obtain ⟨k, hk, hrun⟩ := Meter.loaded_ticks board hk (board.window - 1) (by omega)
  rw [hticks, hbusy, Nat.zero_add] at hrun
  obtain ⟨k', hk', hstep⟩ :=
    meterStep_tick board ⟨k, board.window - 1, board.window - 1, m.last⟩ hk
  refine ⟨_, .tail hrun trivial hstep, ?_⟩
  have hend : board.window - 1 + 1 = board.window := Nat.sub_add_cancel hpos
  unfold Meter.count
  rw [if_pos hk'.isBusy, if_pos hend, hend]

/-- A window of 1000 busy ticks is reported as a load of 16. -/
theorem full_load_wraps :
    ∃ m, Reaches (meterStep discoveryBoard) anyStep (Meter.initial discoveryBoard clearedState) m ∧
      m.last = some 1000 ∧ (getCurrentUsage m.kernel).toNat = 16 := by
  have hfacts : (runInputs (meterStep discoveryBoard) anyStep (busyThread 0)
      (Meter.initial discoveryBoard clearedState)).map
        (fun m => (m.ticks, m.busy, m.kernel.currentThread, m.kernel.locked, m.kernel.count,
          (m.kernel.thread 0).type)) = some (0, 0, some 0, 0, 1, .user) := by
    decide +kernel
  obtain ⟨m₀, hm₀, heq⟩ := Option.map_eq_some_iff.mp hfacts
  simp only [Prod.mk.injEq] at heq
  obtain ⟨hticks, hbusy, hcur, hlocked, hcount, htype⟩ := heq
  have hboot : Reaches (meterStep discoveryBoard) anyStep
      (Meter.initial discoveryBoard clearedState) m₀ := .of_runInputs hm₀
  obtain ⟨⟨L, hi, hc⟩, -⟩ := Meter.reaches_inv clearedState_blank (by decide) (by decide) hboot
  have hloaded : m₀.kernel.Loaded := by
    refine ⟨⟨L, hi⟩, hc, ⟨0, hcur⟩, by simp [hlocked, schedIsLocked], fun t ht => ?_⟩
    rw [hcount, Nat.lt_one_iff] at ht
    rw [ht, htype]
    decide
  have hpos : 0 < discoveryBoard.window := by decide
  obtain ⟨m, hrun, hlast⟩ := Meter.loaded_window hloaded hticks hbusy hpos
  have hreached := hrun.trans hboot
  refine ⟨m, hreached, hlast, ?_⟩
  have hmeasures := (Meter.reaches_inv clearedState_blank (by decide) (by decide) hreached).2
  exact (hmeasures.usage _ hlast).2

end PosixRtos.Kernel
