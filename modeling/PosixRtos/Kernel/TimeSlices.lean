import PosixRtos.Kernel.Schedule
import PosixRtos.Kernel.Ticks

/-! The time slices. `cur_ticks` starts at `init_ticks` and is counted down in
8-bit arithmetic. Nothing reloads it: behind the first rotation it runs from 0
through 255 to 0, so that every slice but the first has 256 ticks. -/
namespace PosixRtos.Kernel

open PosixRtos.Library.Rings PosixRtos.Library.Runs IntrusiveList

/-- A run with two histories: the ticks charged to a thread since its last
rotation, and the lengths of its slices before that, latest first. -/
structure Slices where
  kernel : State
  charged : Tid → Nat
  slices : Tid → List Nat

/-- `sched_proc_current_thread` puts `t` at the tail of its ready list. -/
def State.Rotates (k : State) (t : Tid) : Prop :=
  (schedProcCurrentThread k).map State.enqueued = some (t :: k.enqueued)

instance (k : State) (t : Tid) : Decidable (k.Rotates t) :=
  inferInstanceAs (Decidable (_ = _))

def Slices.charge (s : Slices) (t : Tid) : Slices :=
  if s.kernel.Rotates t then
    { s with
      charged := Function.update s.charged t 0
      slices := Function.update s.slices t ((s.charged t + 1) :: s.slices t) }
  else { s with charged := Function.update s.charged t (s.charged t + 1) }

/-- A tick is charged to the current thread, unless the scheduler is locked. -/
def Slices.observe (s : Slices) (op : Op) : Slices :=
  match s.kernel.currentThread with
  | none => s
  | some t => if op = .tick ∧ s.kernel.locked ≠ schedIsLocked then s.charge t else s

def sliceStep (board : Board) (s : Slices) (op : Op) : Option Slices := do
  let kernel ← step board s.kernel op
  some { s.observe op with kernel := kernel }

/-- `sched_init` has run, and no thread exists. -/
def Slices.initial (board : Board) (blank : State) : Slices :=
  ⟨schedInit board blank, fun _ => 0, fun _ => []⟩

/-- A slice of `slice` ticks first, then slices of 256, and `left` in the counter. -/
structure Counted (slice left charged : Nat) (slices : List Nat) : Prop where
  positive : 0 < slice
  byte : slice < 256
  history : (slices = [] ∧ 0 < left ∧ charged + left = slice) ∨
    ∃ m, slices = List.replicate m 256 ++ [slice] ∧
      (0 < left ∧ charged + left = 256 ∨ charged = 0 ∧ left = 0)

structure SliceInv (s : Slices) : Prop where
  fresh : ∀ t, s.kernel.count ≤ t → s.charged t = 0 ∧ s.slices t = []
  counted : ∀ t, t < s.kernel.count → Counted (s.kernel.thread t).initTicks.toNat
    (s.kernel.thread t).curTicks.toNat (s.charged t) (s.slices t)

variable {board : Board} {blank k k' : State} {L : Head → List Tid} {c t u : Tid} {op : Op}
  {s s' : Slices} {slice left charged : Nat} {slices : List Nat}

/-! One tick on the counter. -/

theorem byte_sub_one (x : BitVec 8) :
    (x - 1).toNat = if x.toNat = 0 then 255 else x.toNat - 1 := by
  have hx := x.isLt
  rw [BitVec.toNat_sub]
  split <;> simp <;> omega

theorem Counted.rotate (hc : Counted slice left charged slices) (hleft : left = 1) :
    Counted slice 0 0 ((charged + 1) :: slices) := by
  refine ⟨hc.positive, hc.byte, .inr ?_⟩
  rcases hc.history with ⟨rfl, -, hsum⟩ | ⟨m, rfl, hcounter⟩
  · refine ⟨0, ?_, .inr ⟨rfl, rfl⟩⟩
    rw [show charged + 1 = slice by omega]
    rfl
  · refine ⟨m + 1, ?_, .inr ⟨rfl, rfl⟩⟩
    rw [show charged + 1 = 256 by omega]
    rfl

theorem Counted.tick (hc : Counted slice left charged slices) (hleft : left ≠ 1) :
    Counted slice (if left = 0 then 255 else left - 1) (charged + 1) slices := by
  refine ⟨hc.positive, hc.byte, ?_⟩
  rcases hc.history with ⟨hnil, hpos, hsum⟩ | ⟨m, hlist, hcounter⟩
  · refine .inl ⟨hnil, ?_, ?_⟩ <;> split <;> omega
  · refine .inr ⟨m, hlist, .inl ⟨?_, ?_⟩⟩ <;> split <;> omega

theorem Counted.start (hpos : 0 < slice) (hbyte : slice < 256) : Counted slice slice 0 [] :=
  ⟨hpos, hbyte, .inl ⟨rfl, hpos, Nat.zero_add _⟩⟩

/-- All slices are as long as the first exactly if there is no second one. -/
theorem Counted.exact_iff (hc : Counted slice left charged slices) :
    (∀ n ∈ slices, n = slice) ↔ charged + slices.sum < slice + 256 := by
  have hbyte := hc.byte
  rcases hc.history with ⟨rfl, -, hsum⟩ | ⟨m, rfl, hcounter⟩
  · simp
    omega
  · cases m with
    | zero =>
      simp
      omega
    | succ m =>
      constructor
      · intro hall
        have := hall 256 (by simp [List.replicate_succ])
        omega
      · intro hlt
        simp [List.replicate_succ] at hlt
        omega

/-! The steps of a run. -/

theorem rotates_iff (hcur : k.currentThread = some c) :
    k.Rotates c ↔ (k.thread c).curTicks.toNat = 1 := by
  obtain ⟨k₁, h₁⟩ : ∃ k₁, schedProcCurrentThread k = some k₁ := by
    simp only [schedProcCurrentThread, hcur, Option.bind_eq_bind, Option.bind_some]
    exact ⟨_, rfl⟩
  obtain ⟨-, -, -, hlog⟩ := schedProcCurrentThread_eq hcur h₁
  have hzero : (k.thread c).curTicks - 1 = 0 ↔ (k.thread c).curTicks.toNat = 1 := by
    rw [← BitVec.toNat_inj, byte_sub_one]
    split <;> simp <;> omega
  unfold State.Rotates
  rw [h₁, Option.map_some, Option.some_inj, hlog, ← hzero]
  by_cases hlast : (k.thread c).curTicks - 1 = 0
  · rw [if_pos hlast]
    exact iff_of_true rfl hlast
  · rw [if_neg hlast]
    exact iff_of_false (List.cons_ne_self _ _).symm hlast

theorem Slices.charge_of_ne (s : Slices) (huc : u ≠ c) :
    (s.charge c).charged u = s.charged u ∧ (s.charge c).slices u = s.slices u := by
  unfold Slices.charge
  split <;> simp [Function.update_of_ne huc]

theorem Slices.charge_rotated (hrotates : s.kernel.Rotates c) :
    (s.charge c).charged c = 0 ∧ (s.charge c).slices c = (s.charged c + 1) :: s.slices c := by
  unfold Slices.charge
  rw [if_pos hrotates]
  exact ⟨Function.update_self .., Function.update_self ..⟩

theorem Slices.charge_running (hrotates : ¬ s.kernel.Rotates c) :
    (s.charge c).charged c = s.charged c + 1 ∧ (s.charge c).slices c = s.slices c := by
  unfold Slices.charge
  rw [if_neg hrotates]
  exact ⟨Function.update_self .., rfl⟩

/-- The tick in the middle of a run: `c` is charged. -/
theorem SliceInv.charge (hs : SliceInv s) (hcur : s.kernel.currentThread = some c)
    (hlt : c < s.kernel.count) (htick : Ticked s.kernel c k') :
    SliceInv { s.charge c with kernel := k' } where
  fresh t ht := by
    change k'.count ≤ t at ht
    rw [htick.count] at ht
    have htc : t ≠ c := by
      rintro rfl
      exact absurd hlt (not_lt.mpr ht)
    obtain ⟨hcharged, hslices⟩ := s.charge_of_ne htc
    exact ⟨hcharged.trans (hs.fresh t ht).1, hslices.trans (hs.fresh t ht).2⟩
  counted t ht := by
    change t < k'.count at ht
    rw [htick.count] at ht
    have hold := hs.counted t ht
    change Counted (k'.thread t).initTicks.toNat (k'.thread t).curTicks.toNat
      ((s.charge c).charged t) ((s.charge c).slices t)
    by_cases htc : t = c
    · subst htc
      rw [htick.current, Thread.charge_initTicks, Thread.charge_curTicks, byte_sub_one]
      by_cases hrotates : s.kernel.Rotates t
      · have hone := (rotates_iff hcur).mp hrotates
        obtain ⟨hcharged, hslices⟩ := Slices.charge_rotated hrotates
        rw [hcharged, hslices, hone]
        exact hold.rotate hone
      · obtain ⟨hcharged, hslices⟩ := Slices.charge_running hrotates
        rw [hcharged, hslices]
        exact hold.tick fun hone => hrotates ((rotates_iff hcur).mpr hone)
    · obtain ⟨hcharged, hslices⟩ := s.charge_of_ne htc
      rw [hcharged, hslices]
      have hthread : (k'.thread t).initTicks = (s.kernel.thread t).initTicks ∧
          (k'.thread t).curTicks = (s.kernel.thread t).curTicks := by
        by_cases hsleep : (s.kernel.thread t).status = .sleep
        · rw [htick.sleeper t ht hsleep]
          exact ⟨Thread.nap_initTicks _, Thread.nap_curTicks _⟩
        · rw [htick.other t htc fun _ => hsleep]
          exact ⟨rfl, rfl⟩
      rw [hthread.1, hthread.2]
      exact hold

/-- A section that is no tick charges nobody. -/
theorem SliceInv.section (hs : SliceInv s) (hop : op ≠ .tick)
    (hstep : step board s.kernel op = some k') : SliceInv { s with kernel := k' } where
  fresh t ht := hs.fresh t ((step_edits hstep).count_le.trans ht)
  counted t ht := by
    change t < k'.count at ht
    have hedits := step_edits hstep
    by_cases hlt : t < s.kernel.count
    · have hsame := hedits.field (t := t) (fun x => (x.initTicks, x.curTicks)) (by
        intro f hwrite x
        cases hwrite with
        | curTicks _ htick => exact absurd htick hop
        | _ => rfl) hlt
      obtain ⟨hinit, hcur⟩ := Prod.mk.inj hsame
      change Counted (k'.thread t).initTicks.toNat (k'.thread t).curTicks.toNat (s.charged t)
        (s.slices t)
      rw [hinit, hcur]
      exact hs.counted t hlt
    · obtain ⟨hfull, hslice⟩ := hedits.fresh hop (not_lt.mp hlt) ht
      obtain ⟨hcharged, hslices⟩ := hs.fresh t (not_lt.mp hlt)
      change Counted (k'.thread t).initTicks.toNat (k'.thread t).curTicks.toNat (s.charged t)
        (s.slices t)
      rw [hfull, hcharged, hslices]
      refine .start ?_ (k'.thread t).initTicks.isLt
      exact Nat.pos_of_ne_zero fun hzero => hslice (BitVec.eq_of_toNat_eq hzero)

theorem sliceStep_inv (hi : Inv s.kernel L) (hc : s.kernel.CurrentRunnable) (hs : SliceInv s)
    (hstep : sliceStep board s op = some s') :
    (∃ L', Inv s'.kernel L' ∧ s'.kernel.CurrentRunnable) ∧ SliceInv s' := by
  obtain ⟨k', hkernel, hs'⟩ := Option.bind_eq_some_iff.mp hstep
  cases hs'
  refine ⟨step_inv hi hc hkernel, ?_⟩
  unfold Slices.observe
  by_cases hop : op = .tick
  · subst hop
    have hproc : schedProc board s.kernel = some k' := hkernel
    by_cases hlocked : s.kernel.locked = schedIsLocked
    · have hsame := schedProc_locked hlocked hproc
      cases s.kernel.currentThread <;> simpa [hlocked, hsame] using hs
    · obtain ⟨c, hcur, htick⟩ := schedProc_ticked hi hc hlocked hproc
      rw [hcur]
      simpa [hlocked] using hs.charge hcur (hc c hcur).1 htick
  · have hquiet := hs.section hop hkernel
    cases s.kernel.currentThread <;> simpa [hop] using hquiet

/-- The slices of a thread are all of `init_ticks` ticks exactly as long as fewer
than `init_ticks + 256` ticks have been charged to it. -/
theorem slices_exact_iff (hblank : Blank blank)
    (hrun : Reaches (sliceStep board) anyStep (Slices.initial board blank) s)
    (ht : t < s.kernel.count) :
    (∀ n ∈ s.slices t, n = (s.kernel.thread t).initTicks.toNat) ↔
      s.charged t + (s.slices t).sum < (s.kernel.thread t).initTicks.toNat + 256 := by
  have hinv : (∃ L, Inv s.kernel L ∧ s.kernel.CurrentRunnable) ∧ SliceInv s := by
    refine hrun.invariant
      (fun s => (∃ L, Inv s.kernel L ∧ s.kernel.CurrentRunnable) ∧ SliceInv s) ?_ ?_
    · refine ⟨⟨_, schedInit_inv hblank, fun t ht => by cases ht⟩, fun _ _ => ⟨rfl, rfl⟩, ?_⟩
      intro t ht
      have hzero : (Slices.initial board blank).kernel.count = 0 := hblank.count
      rw [hzero] at ht
      exact absurd ht (Nat.not_lt_zero t)
    · rintro s op s' ⟨⟨L, hi, hc⟩, hs⟩ - hstep
      exact sliceStep_inv hi hc hs hstep
  exact (hinv.2.counted t ht).exact_iff

/-- One thread with a slice of one tick, and `n` ticks. -/
def loneThread (n : Nat) : List Op :=
  [.create (some ⟨1, 1, 0, 0, 512⟩) ⟨true, 0x20000000⟩, .start] ++ List.replicate n .tick

theorem loneThread_slices :
    ∃ s, runInputs (sliceStep discoveryBoard) anyStep (loneThread 3)
        (Slices.initial discoveryBoard clearedState) = some s ∧ s.slices 0 = [1] ∧
      ((∀ n ∈ s.slices 0, n = (s.kernel.thread 0).initTicks.toNat) ↔
        s.charged 0 + (s.slices 0).sum < (s.kernel.thread 0).initTicks.toNat + 256) := by
  have hfacts : (runInputs (sliceStep discoveryBoard) anyStep (loneThread 3)
      (Slices.initial discoveryBoard clearedState)).map
        (fun s => (s.slices 0, s.kernel.count)) = some ([1], 1) := by decide +kernel
  obtain ⟨s, hs, heq⟩ := Option.map_eq_some_iff.mp hfacts
  obtain ⟨hslices, hcount⟩ := Prod.mk.inj heq
  have hcreated : 0 < s.kernel.count := by
    rw [hcount]
    exact Nat.one_pos
  exact ⟨s, hs, hslices, slices_exact_iff clearedState_blank (.of_runInputs hs) hcreated⟩

/-- The second slice of a thread with `init_ticks` 1 has 256 ticks. -/
theorem second_slice_is_long :
    ∃ s, Reaches (sliceStep discoveryBoard) anyStep (Slices.initial discoveryBoard clearedState) s ∧
      s.slices 0 = [256, 1] ∧ ¬ ∀ n ∈ s.slices 0, n = (s.kernel.thread 0).initTicks.toNat := by
  have hfacts : (runInputs (sliceStep discoveryBoard) anyStep (loneThread 257)
      (Slices.initial discoveryBoard clearedState)).map
        (fun s => (s.slices 0, (s.kernel.thread 0).initTicks)) = some ([256, 1], 1) := by
    decide +kernel
  obtain ⟨s, hs, heq⟩ := Option.map_eq_some_iff.mp hfacts
  obtain ⟨hslices, hinit⟩ := Prod.mk.inj heq
  refine ⟨s, .of_runInputs hs, hslices, fun hall => ?_⟩
  have hlong := hall 256 (by simp [hslices])
  rw [hinit] at hlong
  cases hlong

end PosixRtos.Kernel
