import PosixRtos.Kernel.Timetick
import PosixRtos.Kernel.SemUsers

/-! The software timers of `time.c`. The tick interrupt posts `timer_sem`, and
the timer thread makes one pass over `timer_list` for every unit it takes. A
notify function runs on the timer thread, for as long as it likes, and may
block; other threads create and arm timers meanwhile. -/
namespace PosixRtos.Kernel

open PosixRtos.Library.Rings PosixRtos.Library.Runs IntrusiveList

/-- Which `struct __timer`. -/
abbrev TimerId := Nat

structure Timespec where
  tvSec : BitVec 32
  tvNsec : BitVec 32

structure Itimerspect where
  itInterval : Timespec
  itValue : Timespec

/-- `timer_list` and the time plans; a timer's number stands for its notify
function and the value that goes with it. -/
structure Timers where
  links : Links (Cell Unit TimerId)
  count : Nat
  itimerspect : TimerId → Itimerspect

/-- `__timer_create`, when the heap has a block. `memory` is what the block held:
the time plan is not initialised. -/
def rawTimerCreate (timers : Timers) (memory : Itimerspect) : Timers where
  links := listInsertTail (listInit timers.links (.node timers.count)) (.head ())
    (.node timers.count)
  count := timers.count + 1
  itimerspect := Function.update timers.itimerspect timers.count memory

/-- What `timer_settime` stores into the timer. -/
def Timers.arm (timers : Timers) (timer : TimerId) (value : Itimerspect) : Timers :=
  { timers with itimerspect := Function.update timers.itimerspect timer value }

def Timers.setValue (timers : Timers) (timer : TimerId) (tvNsec : BitVec 32) : Timers :=
  timers.arm timer { timers.itimerspect timer with
    itValue := { (timers.itimerspect timer).itValue with tvNsec := tvNsec } }

/-- One timer of the pass, up to the call of its notify function: whether it is
called. -/
def timerCountdown (board : Board) (timers : Timers) (timer : TimerId) : Timers × Bool :=
  let tvNsec := (timers.itimerspect timer).itValue.tvNsec
  if 0 < tvNsec.toInt then
    let left := tvNsec - BitVec.ofNat 32 board.tickPeriod
    (timers.setValue timer left, left = 0)
  else (timers, false)

/-- What follows the notify function. -/
def timerReload (timers : Timers) (timer : TimerId) : Timers :=
  let interval := (timers.itimerspect timer).itInterval.tvNsec
  if interval ≠ 0 then timers.setValue timer interval else timers

/-- Where `timer_thread_entry` is: in `sem_wait`, at a node of `timer_list`, or in
a notify function. -/
inductive TimerPc where
  | semWait
  | visit (pos : Cell Unit TimerId)
  | notify (timer : TimerId)
deriving DecidableEq

/-- `passes`, `ticks` and `notified` are history: complete passes, calls of
`os_timetick`, and calls of notify functions, latest first. -/
structure TimerSystem where
  users : SemUsers
  localTime : BitVec 64
  timers : Timers
  pc : TimerPc
  passes : Nat
  ticks : Nat
  notified : List TimerId

inductive TimerAct where
  | timetick
  | semWait
  | visit
  | returns
  | create (memory : Itimerspect)
  | settime (timer : TimerId) (value : Itimerspect)
  | env (op : Op)
  | dispatch (thread : Tid)

/-- The next attempt of the timer thread's `sem_wait`. -/
def TimerSystem.attempt (board : Board) (timerSem : Nat) (timerThread : Tid) (s : TimerSystem) :
    Option TimerSystem := do
  let act : SemAct := if s.users.pc timerThread = .outside then .wait else .retry
  let users ← semStep board timerSem s.users act
  let pc := if users.pc timerThread = .outside then .visit (s.timers.links.next (.head ()))
    else .semWait
  some { s with users := users, pc := pc }

/-- `timer_sem` is private to `time.c`: the other threads and interrupts reach it
only through `os_timetick`. -/
def timerStep (board : Board) (timerSem : Nat) (timerThread : Tid) (s : TimerSystem) :
    TimerAct → Option TimerSystem
  | .timetick => do
      let users ← semStep board timerSem s.users (.env .tick)
      let users ← semStep board timerSem users .post
      some { s with
        users := users
        localTime := s.localTime + BitVec.ofNat 64 board.tickPeriod
        ticks := s.ticks + 1 }
  | .semWait =>
      if s.users.kernel.currentThread = some timerThread ∧ s.pc = .semWait then
        s.attempt board timerSem timerThread
      else none
  | .visit =>
      if s.users.kernel.currentThread = some timerThread then
        match s.pc with
        | .visit (.node timer) =>
            let (timers, fires) := timerCountdown board s.timers timer
            if fires then
              some { s with timers := timers, pc := .notify timer, notified := timer :: s.notified }
            else some { s with timers := timers, pc := .visit (timers.links.next (.node timer)) }
        | .visit (.head _) => some { s with pc := .semWait, passes := s.passes + 1 }
        | _ => none
      else none
  | .returns =>
      match s.pc with
      | .notify timer =>
          if s.users.kernel.currentThread = some timerThread then
            let timers := timerReload s.timers timer
            some { s with timers := timers, pc := .visit (timers.links.next (.node timer)) }
          else none
      | _ => none
  | .create memory => some { s with timers := rawTimerCreate s.timers memory }
  | .settime timer value => some { s with timers := s.timers.arm timer value }
  | .env op => (semStep board timerSem s.users (.env op)).map fun users => { s with users := users }
  | .dispatch t =>
      (semStep board timerSem s.users (.dispatch t)).map fun users => { s with users := users }

/-- `timer_init`: the semaphore has the ceiling 1, and no timer exists. -/
structure TimerSystem.Initial (board : Board) (timerSem : Nat) (s : TimerSystem) : Prop where
  users : s.users.Initial board timerSem 1
  list : s.timers.links.Ring (.head ()) []
  count : s.timers.count = 0
  pc : s.pc = .semWait
  passes : s.passes = 0
  ticks : s.ticks = 0

/-- The passes of the timer thread, with the one it is in. -/
def TimerSystem.begun (s : TimerSystem) : Nat :=
  s.passes + if s.pc = .semWait then 0 else 1

/-- The unit of the previous tick was taken before this one. -/
def TickTaken (timerSem : Nat) (s : TimerSystem) : TimerAct → Prop
  | .timetick => (s.users.kernel.sem timerSem).value = 0
  | _ => True

instance (timerSem : Nat) (s : TimerSystem) : ∀ act, Decidable (TickTaken timerSem s act)
  | .timetick => inferInstanceAs (Decidable (_ = _))
  | .semWait | .visit | .returns | .create _ | .settime _ _ | .env _ | .dispatch _ =>
      .isTrue trivial

variable {board : Board} {timerSem : Nat} {timerThread : Tid} {s s' s₀ : TimerSystem}
  {u u' : SemUsers} {L : Head → List Tid} {act : TimerAct}

/-- The tick of the timer system is `os_timetick`. -/
theorem timerStep_timetick (hs : timerStep board timerSem timerThread s .timetick = some s') :
    osTimetick board timerSem ⟨s.users.kernel, s.localTime⟩ =
      some ⟨s'.users.kernel, s'.localTime⟩ := by
  simp only [timerStep, Option.bind_eq_bind, Option.bind_eq_some_iff, Option.some.injEq] at hs
  obtain ⟨u₁, htick, u₂, hpost, rfl⟩ := hs
  rw [semStep] at htick
  split at htick
  · cases htick
  obtain ⟨k₁, hproc, rfl⟩ := Option.map_eq_some_iff.mp htick
  obtain ⟨⟨k₂, r⟩, hcall, heq⟩ := Option.bind_eq_some_iff.mp hpost
  cases heq
  have hproc' : schedProc board s.users.kernel = some k₁ := hproc
  have hcall' : semPost k₁ timerSem = some (k₂, r) := hcall
  simp only [osTimetick, hproc', hcall', Option.bind_eq_bind, Option.bind_some]

/-- A post below the ceiling adds a unit. -/
theorem Conserves.post_counts {sem value : Nat} (hu : Conserves sem value u L)
    (hbelow : (u.kernel.sem sem).value < value) (hvalue : value ≤ semValueMax)
    (hs : semStep board sem u .post = some u') : u'.posts = u.posts + 1 := by
  obtain ⟨⟨k, r⟩, hcall, hs⟩ := Option.bind_eq_some_iff.mp hs
  cases hs
  rcases semPost_cases hcall with ⟨hfull, -, -⟩ | ⟨-, -, hwake⟩
  · exact absurd (hbelow.trans_le hvalue) (not_lt.mpr hfull)
  obtain ⟨hi₁, -, -⟩ := incremented_inv hu.inv hu.current sem
  have hsem : k.sem sem = (u.kernel.incremented sem).sem sem := by
    obtain ⟨-, rfl⟩ | ⟨t, rest, -, -, -, hp⟩ := wakeFirst_spec hi₁ hwake
    · rfl
    · rw [hp.sem]
  rw [incremented_sem, hu.initValue, if_pos hbelow] at hsem
  have hraised : (u.kernel.sem sem).value < (k.sem sem).value := by
    rw [hsem]
    exact Nat.lt_succ_self _
  exact congrArg (u.posts + ·) (if_pos hraised)

/-- The attempt takes a unit exactly if it leaves `sem_wait`. -/
theorem attempt_takes {sem : Nat} {t : Tid} (hs : u.attempt sem t = some u') :
    u'.posts = u.posts ∧ u'.takes = u.takes + if u'.pc t = .outside then 1 else 0 := by
  obtain ⟨⟨k, r⟩, -, hs⟩ := Option.bind_eq_some_iff.mp hs
  dsimp only at hs
  split at hs
  · cases hs
    exact ⟨rfl, by simp⟩
  · cases hs
    exact ⟨rfl, by simp⟩

theorem semStep_attempt {sem : Nat} {t : Tid} (ht : u.kernel.currentThread = some t)
    (hs : semStep board sem u (if u.pc t = .outside then .wait else .retry) = some u') :
    u.attempt sem t = some u' := by
  cases hpc : u.pc t with
  | outside => simpa [hpc, semStep, ht] using hs
  | waiting => simpa [hpc, semStep, ht] using hs

/-- What the other threads do leaves the counts alone. -/
theorem semStep_env_counts {sem : Nat} {op : Op} (hs : semStep board sem u (.env op) = some u') :
    u'.posts = u.posts ∧ u'.takes = u.takes := by
  rw [semStep] at hs
  split at hs
  · cases hs
  · obtain ⟨k, -, rfl⟩ := Option.map_eq_some_iff.mp hs
    exact ⟨rfl, rfl⟩

theorem semStep_dispatch_counts {sem : Nat} {t : Tid}
    (hs : semStep board sem u (.dispatch t) = some u') :
    u'.posts = u.posts ∧ u'.takes = u.takes := by
  obtain ⟨k, -, rfl⟩ := Option.map_eq_some_iff.mp hs
  exact ⟨rfl, rfl⟩

/-- Every tick was a unit, and every unit taken began a pass. -/
structure PassForTick (timerSem : Nat) (s : TimerSystem) : Prop where
  users : ∃ L, Conserves timerSem 1 s.users L
  posts : s.users.posts = s.ticks
  takes : s.users.takes = s.begun

theorem PassForTick.timetick (hp : PassForTick timerSem s)
    (hzero : (s.users.kernel.sem timerSem).value = 0)
    (hs : timerStep board timerSem timerThread s .timetick = some s') :
    PassForTick timerSem s' := by
  obtain ⟨L, hu⟩ := hp.users
  simp only [timerStep, Option.bind_eq_bind, Option.bind_eq_some_iff, Option.some.injEq] at hs
  obtain ⟨u₁, htick, u₂, hpost, rfl⟩ := hs
  obtain ⟨L₁, hu₁⟩ := hu.step htick
  obtain ⟨L₂, hu₂⟩ := hu₁.step hpost
  obtain ⟨hposts, htakes⟩ := semStep_env_counts htick
  -- `sched_proc` has left the semaphore alone
  have hunits := hu.units
  have hunits₁ := hu₁.units
  have hmore : u₂.posts = u₁.posts + 1 := by
    refine hu₁.post_counts ?_ (by decide) hpost
    omega
  have hunits₂ := hu₂.units
  have htakes₂ : u₂.takes = u₁.takes := by
    obtain ⟨⟨k, r⟩, -, heq⟩ := Option.bind_eq_some_iff.mp hpost
    cases heq
    rfl
  refine ⟨⟨L₂, hu₂⟩, ?_, ?_⟩
  · rw [hmore, hposts, hp.posts]
  · rw [htakes₂, htakes, hp.takes]
    rfl

theorem PassForTick.semWait (hp : PassForTick timerSem s)
    (hs : timerStep board timerSem timerThread s .semWait = some s') :
    PassForTick timerSem s' := by
  obtain ⟨L, hu⟩ := hp.users
  rw [timerStep] at hs
  split at hs
  · next hcond =>
    obtain ⟨hcur, hpc⟩ := hcond
    obtain ⟨u₁, hstep, hs⟩ := Option.bind_eq_some_iff.mp hs
    cases hs
    have htakes := hp.takes
    unfold TimerSystem.begun at htakes
    rw [hpc, if_pos rfl] at htakes
    obtain ⟨hposts, hcount⟩ := attempt_takes (semStep_attempt hcur hstep)
    refine ⟨hu.step hstep, hposts.trans hp.posts, ?_⟩
    rw [hcount, htakes]
    unfold TimerSystem.begun
    by_cases hout : u₁.pc timerThread = .outside <;> simp [hout]
  · cases hs

theorem PassForTick.visit (hp : PassForTick timerSem s)
    (hs : timerStep board timerSem timerThread s .visit = some s') : PassForTick timerSem s' := by
  have htakes := hp.takes
  unfold TimerSystem.begun at htakes
  rw [timerStep] at hs
  split at hs
  swap
  · cases hs
  split at hs
  · next timer hpc =>
    rw [hpc, if_neg (by simp)] at htakes
    dsimp only at hs
    split at hs
    · cases hs
      exact ⟨hp.users, hp.posts, htakes⟩
    · cases hs
      exact ⟨hp.users, hp.posts, htakes⟩
  · next hpc =>
    rw [hpc, if_neg (by simp)] at htakes
    cases hs
    exact ⟨hp.users, hp.posts, htakes⟩
  · cases hs

theorem PassForTick.step (hp : PassForTick timerSem s) (hok : TickTaken timerSem s act)
    (hs : timerStep board timerSem timerThread s act = some s') : PassForTick timerSem s' := by
  obtain ⟨L, hu⟩ := hp.users
  cases act with
  | timetick => exact hp.timetick hok hs
  | semWait => exact hp.semWait hs
  | visit => exact hp.visit hs
  | returns =>
    have htakes := hp.takes
    unfold TimerSystem.begun at htakes
    rw [timerStep] at hs
    split at hs
    · next timer hpc =>
      rw [hpc, if_neg (by simp)] at htakes
      split at hs
      · cases hs
        exact ⟨hp.users, hp.posts, htakes⟩
      · cases hs
    · cases hs
  | create memory =>
    cases hs
    exact ⟨hp.users, hp.posts, hp.takes⟩
  | settime timer value =>
    cases hs
    exact ⟨hp.users, hp.posts, hp.takes⟩
  | env op =>
    obtain ⟨u₁, hstep, rfl⟩ := Option.map_eq_some_iff.mp hs
    obtain ⟨hposts, htakes⟩ := semStep_env_counts hstep
    exact ⟨hu.step hstep, hposts.trans hp.posts, htakes.trans hp.takes⟩
  | dispatch t =>
    obtain ⟨u₁, hstep, rfl⟩ := Option.map_eq_some_iff.mp hs
    obtain ⟨hposts, htakes⟩ := semStep_dispatch_counts hstep
    exact ⟨hu.step hstep, hposts.trans hp.posts, htakes.trans hp.takes⟩

theorem TimerSystem.Initial.passForTick (hinit : s₀.Initial board timerSem) :
    PassForTick timerSem s₀ := by
  refine ⟨hinit.users.conserves, ?_, ?_⟩
  · rw [hinit.users.posts, hinit.ticks]
  · rw [hinit.users.takes, TimerSystem.begun, hinit.passes, hinit.pc, if_pos rfl]

/-- If every tick finds the unit of the one before it taken, the passes begun and
the pass still owed are the ticks. -/
theorem ticks_become_passes (hinit : s₀.Initial board timerSem)
    (hrun : Reaches (timerStep board timerSem timerThread) (TickTaken timerSem) s₀ s) :
    s.begun + (s.users.kernel.sem timerSem).value = s.ticks := by
  have hp : PassForTick timerSem s := hrun.invariant _ hinit.passForTick
    fun _ _ _ hp hok hs => hp.step hok hs
  obtain ⟨L, hu⟩ := hp.users
  have hunits := hu.units
  rw [← hp.takes, ← hp.posts, hunits, Nat.add_comm]

/-- `timer_init` on the booted machine; thread 2 is the timer thread. -/
def timerBoot : Option TimerSystem := do
  let k ← boot (timerThreads ++ [.start])
  some {
    users := ⟨(semInit k 0 1).1, fun _ => .outside, 0, 0⟩
    localTime := 0
    timers := ⟨⟨id, id⟩, 0, fun _ => ⟨⟨0, 0⟩, ⟨0, 0⟩⟩⟩
    pc := .semWait
    passes := 0
    ticks := 0
    notified := [] }

theorem timerBoot_initial (hs : timerBoot = some s) : s.Initial discoveryBoard 0 := by
  simp only [timerBoot, Option.bind_eq_bind, Option.bind_eq_some_iff, Option.some.injEq] at hs
  obtain ⟨k, hk, rfl⟩ := hs
  have hempty : (boot (timerThreads ++ [.start])).map (fun k =>
      listIsEmpty k.links (.head (.semWait 0))) = some true := by decide +kernel
  rw [hk] at hempty
  have husers : SemUsers.Initial discoveryBoard 0 1 ⟨(semInit k 0 1).1, fun _ => .outside, 0, 0⟩ :=
    ⟨⟨k, reachable_boot hk, Option.some.inj hempty, rfl⟩, fun _ => rfl, rfl, rfl⟩
  exact ⟨husers, Links.ring_nil_iff.mpr ⟨rfl, rfl⟩, rfl, rfl, rfl, rfl⟩

/-- Two ticks, each taken before the next one comes. -/
def steadyTicks : List TimerAct :=
  [.semWait, .timetick, .semWait, .visit, .timetick, .semWait]

theorem steadyTicks_become_passes :
    ∃ s₀ s, timerBoot = some s₀ ∧
      runInputs (timerStep discoveryBoard 0 2) (TickTaken 0) steadyTicks s₀ = some s ∧
      s.ticks = 2 ∧ s.begun + (s.users.kernel.sem 0).value = s.ticks := by
  obtain ⟨s₀, h₀⟩ := Option.isSome_iff_exists.mp (show timerBoot.isSome = true by decide +kernel)
  have hticks : (timerBoot.bind (runInputs (timerStep discoveryBoard 0 2) (TickTaken 0)
      steadyTicks)).map TimerSystem.ticks = some 2 := by decide +kernel
  rw [h₀, Option.bind_some] at hticks
  obtain ⟨s, hs, htwo⟩ := Option.map_eq_some_iff.mp hticks
  exact ⟨s₀, s, h₀, hs, htwo, ticks_become_passes (timerBoot_initial h₀) (.of_runInputs hs)⟩

/-- A timer fires at the first pass, and its notify function is still running
two ticks later: the first of these is owed, and the second is lost. -/
theorem long_notify_loses_tick :
    ∃ s₀ s, s₀.Initial discoveryBoard 0 ∧
      Reaches (timerStep discoveryBoard 0 2) anyStep s₀ s ∧
      s.begun + (s.users.kernel.sem 0).value ≠ s.ticks := by
  let inputs : List TimerAct := [.semWait, .create ⟨⟨0, 0⟩, ⟨0, 0⟩⟩, .settime 0 ⟨⟨0, 0⟩, ⟨0, 1⟩⟩,
    .timetick, .semWait, .visit, .timetick, .timetick]
  obtain ⟨s₀, h₀⟩ := Option.isSome_iff_exists.mp (show timerBoot.isSome = true by decide +kernel)
  have hcounts : (timerBoot.bind (runInputs (timerStep discoveryBoard 0 2) anyStep inputs)).map
      (fun s => (s.begun + (s.users.kernel.sem 0).value, s.ticks)) = some (2, 3) := by
    decide +kernel
  rw [h₀, Option.bind_some] at hcounts
  obtain ⟨s, hs, heq⟩ := Option.map_eq_some_iff.mp hcounts
  obtain ⟨hsum, hticks⟩ := Prod.mk.inj heq
  exact ⟨s₀, s, timerBoot_initial h₀, .of_runInputs hs, by omega⟩

end PosixRtos.Kernel
