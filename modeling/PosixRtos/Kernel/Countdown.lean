import PosixRtos.Library.Countdown
import PosixRtos.Kernel.TimerPasses

/-! The countdown of a timer. A pass subtracts the tick period from
`it_value.tv_nsec` and calls the notify function when the difference is exactly 0,
so that a timer whose time is no multiple of the period is silent. -/
namespace PosixRtos.Kernel

open PosixRtos.Library.Rings PosixRtos.Library.Runs PosixRtos.Library.Countdown IntrusiveList

/-- What a visit makes of `it_value.tv_nsec`, with the notify function and the reload
behind it. -/
def countdown (period interval tvNsec : BitVec 32) : BitVec 32 :=
  if 0 < tvNsec.toInt then if tvNsec = period then interval else tvNsec - period else tvNsec

/-- The `n`-th visit of a timer set to `value` calls its notify function. -/
def Fires (period interval value : BitVec 32) : Nat → Prop
  | 0 => False
  | n + 1 =>
      0 < ((countdown period interval)^[n] value).toInt ∧
        (countdown period interval)^[n] value = period

variable {board : Board} {timerSem : Nat} {timerThread : Tid} {s s' s₀ s₁ s₂ : TimerSystem}
  {act : TimerAct} {timers : Timers} {pc : TimerPc} {t u : TimerId}
  {period interval value tvNsec : BitVec 32} {first again n : Nat}

/-! The arithmetic of the counter. -/

theorem toInt_pos_iff (x : BitVec 32) : 0 < x.toInt ↔ 0 < x.toNat ∧ x.toNat < 2 ^ 31 := by
  have hx := x.isLt
  rw [BitVec.toInt_eq_toNat_cond]
  split <;> omega

theorem sub_eq_zero_iff (x y : BitVec 32) : x - y = 0 ↔ x = y := by
  constructor <;> intro h <;> bv_omega

theorem fires_step (period interval value : BitVec 32) (n : Nat) :
    Fires period interval value (n + 2) ↔
      Fires period interval (countdown period interval value) (n + 1) := by
  rw [Fires, Fires, Function.iterate_succ_apply]

/-- A counter that is not positive rests. -/
theorem Fires.pos (hfires : Fires period interval value n) : 0 < value.toInt := by
  by_contra hrest
  have hfixed : countdown period interval value = value := if_neg hrest
  cases n with
  | zero => cases hfires
  | succ n =>
    rw [Fires, Function.iterate_fixed hfixed] at hfires
    exact hrest hfires.1

/-- The difference is no multiple of the period if it wraps. -/
theorem le_of_sub_scaled (hpos : 0 < (value - period).toInt) (hvalue : 0 < value.toInt)
    (hle : period.toNat ≤ (value - period).toNat) : period.toNat ≤ value.toNat := by
  have hsmall := ((toInt_pos_iff _).mp hpos).2
  have hsigned := ((toInt_pos_iff _).mp hvalue).2
  have hperiod := period.isLt
  rw [BitVec.toNat_sub] at hle hsmall
  omega

/-- A timer that fires was set to a multiple of the period. The calls behind the
first one are those of a timer that was set to the interval. -/
theorem Fires.split (hfires : Fires period interval value n) :
    ∃ first, 0 < first ∧ value.toNat = period.toNat * first ∧
      (n = first ∨ first < n ∧ Fires period interval interval (n - first)) := by
  have hpos := hfires.pos
  induction n generalizing value with
  | zero => cases hfires
  | succ n ih =>
    cases n with
    | zero =>
      obtain ⟨-, heq⟩ := hfires
      rw [Function.iterate_zero_apply] at heq
      exact ⟨1, Nat.one_pos, by rw [heq, Nat.mul_one], .inl rfl⟩
    | succ n =>
      rw [fires_step] at hfires
      by_cases heq : value = period
      · have hreload : countdown period interval value = interval := by
          rw [countdown, if_pos hpos, if_pos heq]
        rw [hreload] at hfires
        exact ⟨1, Nat.one_pos, by rw [heq, Nat.mul_one], .inr ⟨by omega, hfires⟩⟩
      · have hsub : countdown period interval value = value - period := by
          rw [countdown, if_pos hpos, if_neg heq]
        rw [hsub] at hfires
        obtain ⟨first, hfirst, hleft, hcall⟩ := ih hfires hfires.pos
        have hle : period.toNat ≤ value.toNat := by
          refine le_of_sub_scaled hfires.pos hpos ?_
          rw [hleft]
          exact Nat.le_mul_of_pos_right _ hfirst
        rw [BitVec.toNat_sub_of_le hle] at hleft
        refine ⟨first + 1, first.succ_pos, ?_, ?_⟩
        · rw [Nat.mul_succ]
          omega
        · rcases hcall with hlast | ⟨hlt, hagain⟩
          · exact .inl (by omega)
          · refine .inr ⟨by omega, ?_⟩
            rwa [show n + 1 + 1 - (first + 1) = n + 1 - first by omega]

/-- A timer set to a multiple of the period fires. -/
theorem fires_first (hperiod : 0 < period.toNat) (hvalue : value.toNat = period.toNat * (n + 1))
    (hsigned : value.toNat < 2 ^ 31) : Fires period interval value (n + 1) := by
  have hlarger : period.toNat ≤ value.toNat := by
    rw [hvalue]
    exact Nat.le_mul_of_pos_right _ n.succ_pos
  have hpos : 0 < value.toInt := (toInt_pos_iff _).mpr ⟨by omega, hsigned⟩
  induction n generalizing value with
  | zero =>
    refine ⟨hpos, BitVec.eq_of_toNat_eq ?_⟩
    rw [Function.iterate_zero_apply, hvalue, Nat.zero_add, Nat.mul_one]
  | succ n ih =>
    have hmore : period.toNat ≤ period.toNat * (n + 1) := Nat.le_mul_of_pos_right _ n.succ_pos
    have hne : value ≠ period := by
      rintro rfl
      rw [Nat.mul_succ] at hvalue
      omega
    have hsub : countdown period interval value = value - period := by
      rw [countdown, if_pos hpos, if_neg hne]
    have hleft : (value - period).toNat = period.toNat * (n + 1) := by
      rw [BitVec.toNat_sub_of_le hlarger, hvalue, Nat.mul_succ, Nat.add_sub_cancel]
    rw [fires_step, hsub]
    refine ih hleft ?_ (by omega) ((toInt_pos_iff _).mpr ?_)
    · rw [BitVec.toNat_sub_of_le hlarger]
      omega
    · rw [BitVec.toNat_sub_of_le hlarger] at hleft ⊢
      omega

/-! One timer in a run. -/

/-- A run since the timer was armed: the visits of the timer, and those of them
that called its notify function. -/
structure Watch where
  system : TimerSystem
  visits : Nat
  fired : List Nat

def Watch.observe (timer : TimerId) (w : Watch) (act : TimerAct) (s : TimerSystem) : Watch :=
  if w.system.Visits timer act then
    ⟨s, w.visits + 1, if s.pc = .notify timer then (w.visits + 1) :: w.fired else w.fired⟩
  else ⟨s, w.visits, w.fired⟩

def watchStep (board : Board) (timerSem : Nat) (timerThread : Tid) (timer : TimerId) (w : Watch)
    (act : TimerAct) : Option Watch :=
  (timerStep board timerSem timerThread w.system act).map (w.observe timer act)

def NotRearmed (timer : TimerId) (_ : Watch) : TimerAct → Prop
  | .settime t _ => t ≠ timer
  | _ => True

instance (timer : TimerId) (w : Watch) : ∀ act, Decidable (NotRearmed timer w act)
  | .settime t _ => inferInstanceAs (Decidable (t ≠ timer))
  | .timetick | .semWait | .visit | .returns | .create _ | .env _ | .dispatch _ => .isTrue trivial

/-- `it_value.tv_nsec` of the timer, with the reload that its notify function is
followed by. -/
def settled (timers : Timers) (pc : TimerPc) (timer : TimerId) : BitVec 32 :=
  let plan := timers.itimerspect timer
  if pc = .notify timer ∧ plan.itInterval.tvNsec ≠ 0 then plan.itInterval.tvNsec
  else plan.itValue.tvNsec

/-- The field of the timer follows the countdown from `value`. -/
structure Watched (board : Board) (timer : TimerId) (interval value : BitVec 32) (start : Nat)
    (w : Watch) : Prop where
  walk : TimerWalk w.system.timers w.system.pc
  created : timer < w.system.timers.count
  passes : w.visits + start = passesOver timer w.system.pc w.system.passes
  reload : (w.system.timers.itimerspect timer).itInterval.tvNsec = interval
  settled : settled w.system.timers w.system.pc timer =
    (countdown (BitVec.ofNat 32 board.tickPeriod) interval)^[w.visits] value
  fired : ∀ n, n ∈ w.fired ↔
    n ≤ w.visits ∧ Fires (BitVec.ofNat 32 board.tickPeriod) interval value n

variable {timer : TimerId} {w w' : Watch} {start : Nat}

/-! What the operations make of the time plans. -/

theorem timerCountdown_of_ne (board : Board) (timers : Timers) (htu : t ≠ u) :
    (timerCountdown board timers u).1.itimerspect t = timers.itimerspect t := by
  unfold timerCountdown Timers.setValue Timers.arm
  dsimp only
  split
  · exact Function.update_of_ne htu ..
  · rfl

theorem timerReload_of_ne (timers : Timers) (htu : t ≠ u) :
    (timerReload timers u).itimerspect t = timers.itimerspect t := by
  unfold timerReload Timers.setValue Timers.arm
  dsimp only
  split
  · exact Function.update_of_ne htu ..
  · rfl

theorem timerCountdown_self (board : Board) (timers : Timers) (t : TimerId) :
    let plan := timers.itimerspect t
    let plan' := (timerCountdown board timers t).1.itimerspect t
    let period := BitVec.ofNat 32 board.tickPeriod
    plan'.itInterval = plan.itInterval ∧
      plan'.itValue.tvNsec =
        (if 0 < plan.itValue.tvNsec.toInt then plan.itValue.tvNsec - period
          else plan.itValue.tvNsec) ∧
      ((timerCountdown board timers t).2 = true ↔
        0 < plan.itValue.tvNsec.toInt ∧ plan.itValue.tvNsec = period) := by
  dsimp only
  unfold timerCountdown
  dsimp only
  split
  · next hpos =>
    refine ⟨by simp [Timers.setValue, Timers.arm], by simp [Timers.setValue, Timers.arm], ?_⟩
    rw [decide_eq_true_iff, sub_eq_zero_iff]
    exact (and_iff_right hpos).symm
  · next hpos => exact ⟨rfl, rfl, by simp [hpos]⟩

theorem timerReload_self (timers : Timers) (t : TimerId) :
    let plan := timers.itimerspect t
    let plan' := (timerReload timers t).itimerspect t
    plan'.itInterval = plan.itInterval ∧
      plan'.itValue.tvNsec =
        if plan.itInterval.tvNsec ≠ 0 then plan.itInterval.tvNsec else plan.itValue.tvNsec := by
  dsimp only
  unfold timerReload
  dsimp only
  split
  · exact ⟨by simp [Timers.setValue, Timers.arm], by simp [Timers.setValue, Timers.arm]⟩
  · exact ⟨rfl, rfl⟩

/-! The steps of a run. -/

theorem settled_of_ne (hpc : pc ≠ .notify t) :
    settled timers pc t = (timers.itimerspect t).itValue.tvNsec := by
  unfold settled
  exact if_neg fun h => hpc h.1

theorem settled_congr {timers' : Timers} {pc' : TimerPc}
    (hplan : timers'.itimerspect t = timers.itimerspect t)
    (hpc : pc' = .notify t ↔ pc = .notify t) : settled timers' pc' t = settled timers pc t := by
  unfold settled
  rw [hplan]
  simp only [hpc]

/-- A step other than a visit leaves the countdown of the timer where it is. -/
theorem TimerMove.settled_other {passes : Nat} (hmove : TimerMove board s act timers pc passes)
    (hnot : ¬ s.Visits t act) (ht : t < s.timers.count) (harm : ∀ plan, act ≠ .settime t plan) :
    (timers.itimerspect t).itInterval = (s.timers.itimerspect t).itInterval ∧
      settled timers pc t = settled s.timers s.pc t := by
  cases hmove with
  | timetick => exact ⟨rfl, rfl⟩
  | env => exact ⟨rfl, rfl⟩
  | dispatch => exact ⟨rfl, rfl⟩
  | blocks hpc => exact ⟨rfl, settled_congr rfl (by simp [hpc])⟩
  | begins hpc => exact ⟨rfl, settled_congr rfl (by simp [hpc])⟩
  | ends hpc => exact ⟨rfl, settled_congr rfl (by simp [hpc])⟩
  | @skips u hpc =>
    have htu : t ≠ u := by
      rintro rfl
      exact hnot hpc
    have hplan := timerCountdown_of_ne board s.timers htu
    exact ⟨congrArg _ hplan, settled_congr hplan (by simp [hpc])⟩
  | @fires u hpc =>
    have htu : t ≠ u := by
      rintro rfl
      exact hnot hpc
    have hplan := timerCountdown_of_ne board s.timers htu
    exact ⟨congrArg _ hplan, settled_congr hplan (by simp [hpc, htu.symm])⟩
  | @returns u hpc =>
    by_cases htu : t = u
    · subst htu
      obtain ⟨hinterval, hvalue⟩ := timerReload_self s.timers t
      refine ⟨hinterval, ?_⟩
      rw [settled_of_ne (by simp), hvalue]
      unfold settled
      simp [hpc]
    · have hplan := timerReload_of_ne s.timers htu
      exact ⟨congrArg _ hplan, settled_congr hplan (by simp [hpc, Ne.symm htu])⟩
  | create memory =>
    have hplan : (rawTimerCreate s.timers memory).itimerspect t = s.timers.itimerspect t :=
      Function.update_of_ne (Nat.ne_of_lt ht) ..
    exact ⟨congrArg _ hplan, settled_congr hplan Iff.rfl⟩
  | settime u plan =>
    have htu : t ≠ u := by
      rintro rfl
      exact harm plan rfl
    have hplan : (s.timers.arm u plan).itimerspect t = s.timers.itimerspect t :=
      Function.update_of_ne htu ..
    exact ⟨congrArg _ hplan, settled_congr hplan Iff.rfl⟩

theorem TimerMove.settled_visit {passes : Nat} (hmove : TimerMove board s act timers pc passes)
    (hvisit : s.Visits t act) :
    (timers.itimerspect t).itInterval = (s.timers.itimerspect t).itInterval ∧
      settled timers pc t = countdown (BitVec.ofNat 32 board.tickPeriod)
        (s.timers.itimerspect t).itInterval.tvNsec (settled s.timers s.pc t) ∧
      (pc = .notify t ↔ 0 < (settled s.timers s.pc t).toInt ∧
        settled s.timers s.pc t = BitVec.ofNat 32 board.tickPeriod) := by
  have hplace : s.pc = .visit (.node t) := by
    cases hmove <;> first | exact hvisit | exact absurd hvisit id
  have hbefore : settled s.timers s.pc t = (s.timers.itimerspect t).itValue.tvNsec :=
    settled_of_ne (by simp [hplace])
  rw [hbefore]
  obtain ⟨hinterval, hvalue, hcalls⟩ := timerCountdown_self board s.timers t
  unfold countdown
  cases hmove with
  | @skips u hpc hquiet =>
    obtain rfl : t = u := by simpa [hplace] using hpc
    rw [hquiet] at hcalls
    have hnot : ¬ (_ ∧ _) := hcalls.not.mp (by simp)
    refine ⟨hinterval, ?_, by simpa using hnot⟩
    rw [settled_of_ne (by simp), hvalue]
    split
    · next hpos => rw [if_neg fun heq => hnot ⟨hpos, heq⟩]
    · rfl
  | @fires u hpc hfires =>
    obtain rfl : t = u := by simpa [hplace] using hpc
    obtain ⟨hpos, heq⟩ := hcalls.mp hfires
    refine ⟨hinterval, ?_, iff_of_true rfl ⟨hpos, heq⟩⟩
    rw [if_pos hpos, if_pos heq]
    unfold settled
    dsimp only
    rw [hinterval, hvalue, if_pos hpos, heq]
    split
    · rfl
    · next hnone =>
      have hzero : (s.timers.itimerspect t).itInterval.tvNsec = 0 := by simpa using hnone
      rw [hzero]
      exact BitVec.sub_self _
  | ends hpc => cases hplace.symm.trans hpc
  | _ => cases hvisit

/-- A log of the numbers with `P` grows by the next number, if that has `P`. -/
theorem logged_succ {P : Nat → Prop} {log : List Nat} {m : Nat} {c : Prop} [Decidable c]
    (hlog : ∀ n, n ∈ log ↔ n ≤ m ∧ P n) (hc : c ↔ P (m + 1)) (n : Nat) :
    n ∈ (if c then (m + 1) :: log else log) ↔ n ≤ m + 1 ∧ P n := by
  by_cases hlast : n = m + 1
  · subst hlast
    by_cases hnow : c
    · simp [hnow, hc.mp hnow]
    · simp [hnow, mt hc.mpr hnow, hlog]
  · have hle : n ≤ m + 1 ↔ n ≤ m := by omega
    by_cases hnow : c
    · simp [hnow, hlast, hlog, hle]
    · simp [hnow, hlog, hle]

theorem Watched.step (hw : Watched board timer interval value start w)
    (hok : NotRearmed timer w act)
    (hstep : watchStep board timerSem timerThread timer w act = some w') :
    Watched board timer interval value start w' := by
  obtain ⟨s', hs, rfl⟩ := Option.map_eq_some_iff.mp hstep
  have hmove := timerStep_move hs
  have hwalk := hw.walk.move hmove
  have hcreated : timer < s'.timers.count := hw.created.trans_le hmove.count_le
  have hpasses := hw.walk.passesOver_move hw.created hmove
  have hstart := hw.passes
  unfold Watch.observe
  by_cases hvisit : w.system.Visits timer act
  · rw [if_pos hvisit] at hpasses ⊢
    obtain ⟨hinterval, hsettled, hcalls⟩ := hmove.settled_visit hvisit
    rw [hw.reload, hw.settled] at hsettled
    rw [hw.settled] at hcalls
    refine ⟨hwalk, hcreated, by dsimp only; omega, ?_, ?_, logged_succ hw.fired hcalls⟩
    · rw [hinterval, hw.reload]
    · rw [hsettled, Function.iterate_succ_apply']
  · rw [if_neg hvisit] at hpasses ⊢
    have harm : ∀ plan, act ≠ .settime timer plan := by
      rintro plan rfl
      exact hok rfl
    obtain ⟨hinterval, hsettled⟩ := hmove.settled_other hvisit hw.created harm
    refine ⟨hwalk, hcreated, by dsimp only; omega, ?_, ?_, hw.fired⟩
    · rw [hinterval, hw.reload]
    · rw [hsettled, hw.settled]

/-! The law of the claim is that of `countdown`, on multiples of the period. -/

variable {p v v' r : Nat}

theorem Watched.run (hw : Watched board timer interval value start w)
    (hrun : Reaches (watchStep board timerSem timerThread timer) (NotRearmed timer) w w') :
    Watched board timer interval value start w' :=
  hrun.invariant _ hw fun _ _ _ hw hok hstep => hw.step hok hstep

/-- A timer is watched from here on. -/
theorem watched_start (board : Board) (hwalk : TimerWalk s.timers s.pc)
    (hcreated : timer < s.timers.count) :
    Watched board timer (s.timers.itimerspect timer).itInterval.tvNsec
      (settled s.timers s.pc timer) (passesOver timer s.pc s.passes) ⟨s, 0, []⟩ := by
  refine ⟨hwalk, hcreated, Nat.zero_add _, rfl, rfl, fun n => ?_⟩
  cases n with
  | zero => exact iff_of_false List.not_mem_nil fun h => h.2
  | succ n => exact iff_of_false List.not_mem_nil fun h => absurd h.1 (by simp)

/-- A timer is silent as long as its value has not been counted out. -/
theorem Watched.silent_iff (hperiod : board.tickPeriod < 2 ^ 32)
    (hw : Watched board timer interval value start w) :
    w.fired = [] ↔ value.toInt ≤ 0 ∨ ¬ board.tickPeriod ∣ value.toNat ∨
      w.visits < value.toNat / board.tickPeriod := by
  have hp : (BitVec.ofNat 32 board.tickPeriod).toNat = board.tickPeriod := Nat.mod_eq_of_lt hperiod
  constructor
  · intro hsilent
    by_contra! hcond
    obtain ⟨hpos, ⟨first, hfirst⟩, hvisits⟩ := hcond
    have hbounds := (toInt_pos_iff _).mp hpos
    rw [hfirst, Nat.mul_div_cancel_left _ board.positive] at hvisits
    have hfires : Fires (BitVec.ofNat 32 board.tickPeriod) interval value first := by
      cases first with
      | zero => omega
      | succ n =>
        refine fires_first (by rw [hp]; exact board.positive) ?_ hbounds.2
        rw [hp, hfirst]
    have hmem := (hw.fired first).mpr ⟨hvisits, hfires⟩
    rw [hsilent] at hmem
    cases hmem
  · intro hcond
    refine List.eq_nil_iff_forall_not_mem.mpr fun n hmem => ?_
    obtain ⟨hle, hfires⟩ := (hw.fired n).mp hmem
    obtain ⟨first, -, hscaled, hcase⟩ := hfires.split
    rw [hp] at hscaled
    rcases hcond with hneg | hdvd | hearly
    · exact absurd hfires.pos (not_lt.mpr hneg)
    · exact hdvd ⟨first, hscaled⟩
    · rw [hscaled, Nat.mul_div_cancel_left _ board.positive] at hearly
      omega

end PosixRtos.Kernel
