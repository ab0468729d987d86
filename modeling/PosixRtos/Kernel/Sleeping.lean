import PosixRtos.Kernel.Schedule
import PosixRtos.Kernel.Ticks

/-! How long a thread sleeps. `msleep` stores the number of ticks in 16 bits, and
`sched_proc` counts it down before it looks at it, so a sleeper wakes after the
number it stored, or after 65536 ticks if that is 0. -/
namespace PosixRtos.Kernel

open PosixRtos.Library.Rings PosixRtos.Library.Runs IntrusiveList

/-- `sleep` of `unistd.c`; the product is a 32-bit word. -/
def sleep (board : Board) (k : State) (seconds : BitVec 32) : Option (State × BitVec 32) := do
  let (k, _) ← msleep board k (seconds * 1000)
  some (k, seconds)

/-- The scheduler is not locked, and nobody signals `t`. -/
def LeftAlone (t : Tid) (k : State) (op : Op) : Prop :=
  k.locked ≠ schedIsLocked ∧ op ≠ .reportSignal t

structure Asleep (k : State) (t : Tid) : Prop where
  status : (k.thread t).status = .sleep
  list : ∃ L, Represents k L ∧ t ∈ L .sleep

/-- The tick from `k` to `k'` has put `t` at the tail of its ready list. What is
behind it now are sleepers that the same tick has woken after it. -/
structure WokenAtTail (k k' : State) (t : Tid) : Prop where
  status : (k'.thread t).status = .ready
  list : ∃ L L' front behind, Represents k L ∧ Represents k' L' ∧ t ∈ L .sleep ∧
    L' (.ready (k'.thread t).curPrio) = front ++ t :: behind ∧ ∀ u ∈ behind, u ∈ L .sleep

/-- In every run `t` stays in the sleep list for `n` ticks, and the last of them
wakes it. -/
structure SleepsFor (board : Board) (t : Tid) (k : State) (n : Nat) : Prop where
  stays : ∀ inputs k', Follows (step board) (LeftAlone t) k inputs k' →
    inputs.count .tick < n → Asleep k' t
  wakes : ∀ inputs k' k'', Follows (step board) (LeftAlone t) k inputs k' →
    inputs.count .tick + 1 = n → k'.locked ≠ schedIsLocked → step board k' .tick = some k'' →
      WokenAtTail k' k'' t

/-- `t` sleeps, with `n` ticks to go. -/
structure Dozing (k : State) (L : Head → List Tid) (t : Tid) (n : Nat) : Prop where
  inv : Inv k L
  current : k.CurrentRunnable
  bound : t < k.count
  status : (k.thread t).status = .sleep
  ticks : (k.thread t).sleepTicks.toNat = n % 2 ^ 16
  positive : 0 < n
  word : n ≤ 2 ^ 16

variable {board : Board} {k k' k'' : State} {L : Head → List Tid} {t u c : Tid} {op : Op}
  {inputs : List Op} {m n : Nat}

theorem Dozing.asleep (hd : Dozing k L t n) : Asleep k t :=
  ⟨hd.status, L, hd.inv.represents, hd.inv.mem_sleep_iff.mpr ⟨hd.bound, hd.status⟩⟩

theorem Dozing.not_current (hd : Dozing k L t n) : k.currentThread ≠ some t := by
  intro hcur
  have hsleep := hd.status
  rcases (hd.current t hcur).2 with hrun | hrun <;> rw [hrun] at hsleep <;> cases hsleep

theorem halfword_sub_one (x : BitVec 16) :
    (x - 1).toNat = if x.toNat = 0 then 65535 else x.toNat - 1 := by
  have hx := x.isLt
  rw [BitVec.toNat_sub]
  split <;> simp <;> omega

/-! Between two ticks. -/

/-- The steps that are not masked sections leave a sleeper alone as well. -/
theorem Dozing.status_kept (hd : Dozing k L t n) (hop : op ≠ .tick) (hsignal : op ≠ .reportSignal t)
    (hs : step board k op = some k') : (k'.thread t).status = .sleep := by
  have hnot := hd.not_current
  by_cases hsection : op.IsSection
  · rw [step_status hsection hd.inv hd.current hd.bound (fun htick => absurd htick hop)
      (by simp [hd.status]) hsignal (fun hcur => absurd hcur hnot) hs]
    exact hd.status
  cases op with
  | start =>
    rw [step] at hs
    split at hs
    · obtain ⟨thread, -, hs⟩ := Option.bind_eq_some_iff.mp hs
      cases hs
      exact hd.status
    · cases hs
  | intExit =>
    obtain ⟨c, hcur, hs⟩ := Option.bind_eq_some_iff.mp hs
    cases hs
    have htc : t ≠ c := by
      rintro rfl
      exact hnot hcur
    rw [State.setStatus_of_ne k htc]
    exact hd.status
  | pendSV =>
    rw [(pendSVHandler_same hs).1.status]
    exact hd.status
  | run psp =>
    cases hs
    exact hd.status
  | _ => exact absurd trivial hsection

theorem Dozing.section (hd : Dozing k L t n) (hop : op ≠ .tick) (hsignal : op ≠ .reportSignal t)
    (hs : step board k op = some k') : ∃ L', Dozing k' L' t n := by
  obtain ⟨L', hi', hc'⟩ := step_inv hd.inv hd.current hs
  have hedits := step_edits hs
  have hticks := hedits.field (t := t) Thread.sleepTicks (by
    intro f hwrite x
    cases hwrite with
    | sleepTicks value hwho =>
      rcases hwho with htick | ⟨ms, -, hcur⟩
      · exact absurd htick hop
      · exact absurd hcur hd.not_current
    | _ => rfl) hd.bound
  refine ⟨L', hi', hc', hd.bound.trans_le hedits.count_le, hd.status_kept hop hsignal hs, ?_,
    hd.positive, hd.word⟩
  rw [hticks]
  exact hd.ticks

/-! A tick. -/

theorem Dozing.nap_zero_iff (hd : Dozing k L t n) :
    (k.thread t).sleepTicks - 1 = 0 ↔ n = 1 := by
  have hticks := hd.ticks
  have hpos := hd.positive
  have hword := hd.word
  rw [← BitVec.toNat_inj, halfword_sub_one, hticks]
  change (if n % 65536 = 0 then 65535 else n % 65536 - 1) = 0 ↔ n = 1
  split <;> omega

theorem Dozing.tick (hd : Dozing k L t (n + 1)) (hn : n ≠ 0) (hunlocked : k.locked ≠ schedIsLocked)
    (hs : step board k .tick = some k') : ∃ L', Dozing k' L' t n := by
  obtain ⟨L', hi', hc'⟩ := step_inv hd.inv hd.current hs
  obtain ⟨c, hcur, htick⟩ := schedProc_ticked hd.inv hd.current hunlocked hs
  have hthread := htick.sleeper t hd.bound hd.status
  have hnot : ¬ (k.thread t).sleepTicks - 1 = 0 := by
    rw [hd.nap_zero_iff]
    omega
  rw [Thread.nap, if_neg hnot] at hthread
  have hticks := hd.ticks
  have hword := hd.word
  refine ⟨L', hi', hc', ?_, ?_, ?_, Nat.pos_of_ne_zero hn, by omega⟩
  · rw [htick.count]
    exact hd.bound
  · rw [hthread]
    exact hd.status
  · rw [hthread]
    change ((k.thread t).sleepTicks - 1).toNat = n % 2 ^ 16
    rw [halfword_sub_one, hticks]
    split <;> omega

/-- Whatever stands before `t` in the log of the ready lists has been put there
later. -/
theorem mem_of_age_lt {woken rest : List Tid} (ht : t ∈ woken)
    (hage : (woken ++ rest).idxOf u < (woken ++ rest).idxOf t) : u ∈ woken := by
  by_contra hu
  rw [List.idxOf_append_of_mem ht, List.idxOf_append_of_notMem hu] at hage
  have := List.idxOf_lt_length_of_mem ht
  omega

theorem Dozing.last_tick (hd : Dozing k L t 1) (hunlocked : k.locked ≠ schedIsLocked)
    (hs : step board k .tick = some k') : WokenAtTail k k' t := by
  obtain ⟨L', hi', -⟩ := step_inv hd.inv hd.current hs
  obtain ⟨c, hcur, htick⟩ := schedProc_ticked hd.inv hd.current hunlocked hs
  have hzero := hd.nap_zero_iff.mpr rfl
  have hstatus : (k'.thread t).status = .ready := by
    rw [htick.sleeper t hd.bound hd.status, Thread.nap, if_pos hzero]
  have hmem : t ∈ L' (.ready (k'.thread t).curPrio) := by
    refine (hi'.runnable_iff ?_).mp (.inl hstatus)
    rw [htick.count]
    exact hd.bound
  obtain ⟨front, behind, hsplit⟩ := List.append_of_mem hmem
  obtain ⟨woken, hwoken, hlog⟩ := htick.log
  refine ⟨hstatus, L, L', front, behind, hd.inv.represents, hi'.represents,
    hd.inv.mem_sleep_iff.mpr ⟨hd.bound, hd.status⟩, hsplit, fun u hu => ?_⟩
  have haged := hi'.aged (k'.thread t).curPrio
  rw [hsplit, List.pairwise_append, List.pairwise_cons] at haged
  have hage := haged.2.1.1 u hu
  unfold State.age at hage
  rw [hlog] at hage
  have hin := mem_of_age_lt ((hwoken t).mpr ⟨hd.bound, hd.status, hzero⟩) hage
  obtain ⟨hlt, hasleep, -⟩ := (hwoken u).mp hin
  exact hd.inv.mem_sleep_iff.mpr ⟨hlt, hasleep⟩

/-! A whole run. -/

theorem Dozing.follows (hd : Dozing k L t n)
    (hrun : Follows (step board) (LeftAlone t) k inputs k') (hcount : inputs.count .tick < n) :
    ∃ L', Dozing k' L' t (n - inputs.count .tick) := by
  induction hrun with
  | nil => exact ⟨L, hd⟩
  | @snoc inputs k₁ k₂ op _ hok hs ih =>
    rw [List.count_append, List.count_singleton] at hcount ⊢
    by_cases hop : op = .tick
    · subst hop
      rw [beq_self_eq_true, if_pos rfl] at hcount ⊢
      obtain ⟨L₁, hd₁⟩ := ih (by omega)
      have hleft : n - inputs.count .tick = n - (inputs.count .tick + 1) + 1 := by omega
      rw [hleft] at hd₁
      exact hd₁.tick (by omega) hok.1 hs
    · have hne : (op == Op.tick) = false := beq_false_of_ne hop
      rw [hne, if_neg Bool.false_ne_true, Nat.add_zero] at hcount ⊢
      obtain ⟨L₁, hd₁⟩ := ih hcount
      exact hd₁.section hop hok.2 hs

theorem Dozing.sleepsFor (board : Board) (hd : Dozing k L t n) : SleepsFor board t k n where
  stays inputs k' hrun hcount := by
    obtain ⟨L', hd'⟩ := hd.follows hrun hcount
    exact hd'.asleep
  wakes inputs k' k'' hrun hcount hunlocked hs := by
    obtain ⟨L', hd'⟩ := hd.follows hrun (by omega)
    have hone : n - inputs.count .tick = 1 := by omega
    rw [hone] at hd'
    exact hd'.last_tick hunlocked hs

/-- The ticks go on for as long as one likes. -/
theorem ticks_follow (board : Board) (hi : Inv k L) (hc : k.CurrentRunnable)
    (hcur : k.currentThread = some c) (hunlocked : k.locked ≠ schedIsLocked) (t : Tid) (n : Nat) :
    ∃ k', Follows (step board) (LeftAlone t) k (List.replicate n .tick) k' ∧
      k'.locked ≠ schedIsLocked ∧ (∃ L', Inv k' L') ∧ k'.CurrentRunnable ∧
      ∃ c', k'.currentThread = some c' := by
  induction n with
  | zero => exact ⟨k, .nil, hunlocked, ⟨L, hi⟩, hc, c, hcur⟩
  | succ n ih =>
    obtain ⟨k₁, hrun, hunlocked₁, ⟨L₁, hi₁⟩, hc₁, c₁, hcur₁⟩ := ih
    obtain ⟨k₂, c₂, hs, hcur₂⟩ := schedProc_isSome board hi₁ hc₁ hcur₁
    have hstep : step board k₁ .tick = some k₂ := hs
    obtain ⟨L₂, hi₂, hc₂⟩ := step_inv hi₁ hc₁ hstep
    have hlocked : k₂.locked = k₁.locked := by
      rcases (edits_schedProc hs).rest.locked with hlocked | hop | ⟨state, hop⟩
      · exact hlocked
      · cases hop
      · cases hop
    rw [List.replicate_succ']
    refine ⟨k₂, .snoc hrun ⟨hunlocked₁, by simp⟩ hs, ?_, ⟨L₂, hi₂⟩, hc₂, c₂, hcur₂⟩
    rw [hlocked]
    exact hunlocked₁

/-- A thread does not sleep for two different times. -/
theorem SleepsFor.le (hm : SleepsFor board t k m) (hn : SleepsFor board t k n) (hpos : 0 < m)
    (hi : Inv k L) (hc : k.CurrentRunnable) (hcur : k.currentThread = some c)
    (hunlocked : k.locked ≠ schedIsLocked) : n ≤ m := by
  by_contra hlt
  obtain ⟨m, rfl⟩ := Nat.exists_eq_succ_of_ne_zero hpos.ne'
  obtain ⟨k', hrun, hunlocked', ⟨L', hi'⟩, hc', c', hcur'⟩ :=
    ticks_follow board hi hc hcur hunlocked t m
  obtain ⟨k'', -, hproc, -⟩ := schedProc_isSome board hi' hc' hcur'
  have hs : step board k' .tick = some k'' := hproc
  have hcount : (List.replicate m Op.tick).count .tick = m := List.count_replicate_self
  have hwoken := hm.wakes _ _ k'' hrun (by rw [hcount]) hunlocked' hs
  have hasleep := hn.stays _ k'' (.snoc hrun ⟨hunlocked', by simp⟩ hs) (by
    rw [List.count_append, hcount, List.count_singleton_self]
    omega)
  have hstatus := hasleep.status
  rw [hwoken.status] at hstatus
  cases hstatus

/-! The calls. -/

/-- The ticks that a request of `ticks` turns into. -/
def storedTicks (ticks : Nat) : Nat := (max 1 ticks - 1) % 2 ^ 16 + 1

theorem msleep_dozes {ms r : BitVec 32} (hi : Inv k L) (hc : k.CurrentRunnable)
    (hcur : k.currentThread = some t) (hs : msleep board k ms = some (k', r)) :
    (∃ L', Dozing k' L' t (storedTicks (ms.toNat / board.tickPeriod))) ∧
      k'.locked = k.locked ∧ ∃ c, k'.currentThread = some c := by
  have hstep : step board k (.msleep ms) = some k' := by
    rw [step, hs]
    rfl
  obtain ⟨L', hi', hc'⟩ := step_inv hi hc hstep
  have hlocked : k'.locked = k.locked := by
    rcases (step_edits hstep).rest.locked with hlocked | hop | ⟨state, hop⟩
    · exact hlocked
    · cases hop
    · cases hop
  unfold msleep at hs
  rw [hcur] at hs
  obtain ⟨k₁, hswitch, hs⟩ := Option.bind_eq_some_iff.mp hs
  cases hs
  obtain ⟨hthread, hcount, -⟩ : _ ∧ _ ∧ Rest .tick _ _ := schedSwitchThread_thread hswitch
  obtain ⟨toThread, -, hnext⟩ := Option.bind_eq_some_iff.mp hswitch
  obtain ⟨fromThread, hfrom, hnext⟩ := Option.bind_eq_some_iff.mp hnext
  have hcurrent : ∃ c, k'.currentThread = some c := by
    split at hnext <;> cases hnext
    · exact ⟨toThread, rfl⟩
    · exact ⟨fromThread, hfrom⟩
  refine ⟨⟨L', hi', hc', ?_, ?_, ?_, Nat.succ_pos _, ?_⟩, hlocked, hcurrent⟩
  · rw [hcount]
    exact (hc t hcur).1
  · rw [hthread]
    exact State.setStatus_self ..
  · have hself : (k'.thread t).sleepTicks = BitVec.ofNat 16
        (if ms.toNat / board.tickPeriod ≠ 0 then ms.toNat / board.tickPeriod else 1) := by
      rw [hthread, schedSetThreadSleep, State.insertTail_leaveReady_thread]
      simp [State.setStatus]
    rw [hself, BitVec.toNat_ofNat, storedTicks]
    generalize ms.toNat / board.tickPeriod = ticks
    split <;> omega
  · unfold storedTicks
    have := Nat.mod_lt (max 1 (ms.toNat / board.tickPeriod) - 1) (show 0 < 2 ^ 16 by decide)
    omega

/-- How long the call has put `t` to sleep is how long it has stored. -/
theorem msleep_sleepsFor_iff {ms r : BitVec 32} (hr : Reachable board k)
    (hcur : k.currentThread = some t) (hunlocked : k.locked ≠ schedIsLocked)
    (hs : msleep board k ms = some (k', r)) (hpos : 0 < n) :
    SleepsFor board t k' n ↔ n = storedTicks (ms.toNat / board.tickPeriod) := by
  obtain ⟨L, hi, hc⟩ := hr.inv
  obtain ⟨⟨L', hd⟩, hlocked, c, hcur'⟩ := msleep_dozes hi hc hcur hs
  have hstored := hd.sleepsFor board
  rw [← hlocked] at hunlocked
  constructor
  · intro hsleeps
    have hle := hstored.le hsleeps hd.positive hd.inv hd.current hcur' hunlocked
    have hge := hsleeps.le hstored hpos hd.inv hd.current hcur' hunlocked
    omega
  · rintro rfl
    exact hstored

theorem storedTicks_eq_iff (ticks : Nat) : max 1 ticks = storedTicks ticks ↔ ticks ≤ 2 ^ 16 := by
  unfold storedTicks
  omega

/-- A product that wraps gives the same number of ticks only if that is 1. -/
theorem storedTicks_product_iff (product : Nat) {period : Nat} (hperiod : 0 < period) :
    max 1 (product / period) = storedTicks (product % 2 ^ 32 / period) ↔
      product / period ≤ 2 ^ 16 ∧ (product < 2 ^ 32 ∨ product / period ≤ 1) := by
  have hle : product % 2 ^ 32 / period ≤ product / period :=
    Nat.div_le_div_right (Nat.mod_le _ _)
  constructor
  · intro heq
    have hshort : product / period ≤ 2 ^ 16 := by
      unfold storedTicks at heq
      omega
    refine ⟨hshort, ?_⟩
    by_contra hwraps
    obtain ⟨hlarge, hmany⟩ := not_or.mp hwraps
    rw [← (storedTicks_eq_iff _).mpr (hle.trans hshort)] at heq
    have hsame : product % 2 ^ 32 / period = product / period := by omega
    -- the two products differ by a multiple of the period at least
    have hbelow := Nat.div_mul_le_self (product % 2 ^ 32) period
    have habove := Nat.lt_div_mul_add (a := product) hperiod
    rw [hsame] at hbelow
    have hperiod' : 2 ^ 32 < period := by omega
    have hzero : product % 2 ^ 32 / period = 0 :=
      Nat.div_eq_of_lt ((Nat.mod_lt _ (by decide)).trans hperiod')
    omega
  · rintro ⟨hshort, hfits | hone⟩
    · rw [Nat.mod_eq_of_lt hfits]
      exact (storedTicks_eq_iff _).mpr hshort
    · rw [← (storedTicks_eq_iff _).mpr (hle.trans hshort)]
      omega

/-- Both calls last as long as requested exactly up to 65536 ticks; `sleep` in
addition needs a product that does not wrap, unless that is one tick anyway. -/
theorem sleep_durations_iff (hr : Reachable board k) (hcur : k.currentThread = some t)
    (hunlocked : k.locked ≠ schedIsLocked) :
    (∀ ms k' r, msleep board k ms = some (k', r) →
      (SleepsFor board t k' (max 1 (ms.toNat / board.tickPeriod)) ↔
        ms.toNat / board.tickPeriod ≤ 2 ^ 16)) ∧
    ∀ seconds k' r, sleep board k seconds = some (k', r) →
      (SleepsFor board t k' (max 1 (seconds.toNat * 1000 / board.tickPeriod)) ↔
        seconds.toNat * 1000 / board.tickPeriod ≤ 2 ^ 16 ∧
          (seconds.toNat * 1000 < 2 ^ 32 ∨ seconds.toNat * 1000 / board.tickPeriod ≤ 1)) := by
  constructor
  · intro ms k' r hs
    rw [msleep_sleepsFor_iff hr hcur hunlocked hs (by omega)]
    exact storedTicks_eq_iff _
  · intro seconds k' r hs
    obtain ⟨⟨k₁, r₁⟩, hcall, hs⟩ := Option.bind_eq_some_iff.mp hs
    cases hs
    have hproduct : (seconds * 1000).toNat = seconds.toNat * 1000 % 2 ^ 32 := BitVec.toNat_mul ..
    rw [msleep_sleepsFor_iff hr hcur hunlocked hcall (by omega), hproduct]
    exact storedTicks_product_iff _ board.positive

/-- The current thread of the three asks for `ms` milliseconds. -/
def sleepCall (ms : BitVec 32) : Option (State × State × BitVec 32) := do
  let k ← boot (threeThreads ++ [.start, .pendSV])
  let (k', r) ← msleep discoveryBoard k ms
  some (k, k', r)

theorem sleepCall_spec {ms r : BitVec 32} (hs : sleepCall ms = some (k, k', r)) :
    Reachable discoveryBoard k ∧ msleep discoveryBoard k ms = some (k', r) := by
  simp only [sleepCall, Option.bind_eq_bind, Option.bind_eq_some_iff, Option.some.injEq] at hs
  obtain ⟨k₁, hboot, ⟨k₂, r₂⟩, hcall, heq⟩ := hs
  simp only [Prod.mk.injEq] at heq
  obtain ⟨rfl, rfl, rfl⟩ := heq
  exact ⟨reachable_boot hboot, hcall⟩

theorem oneSecond_duration : ∃ k k' r, sleepCall 1000 = some (k, k', r) ∧
    (SleepsFor discoveryBoard 1 k' (max 1 ((1000#32).toNat / 1)) ↔
      (1000#32).toNat / 1 ≤ 2 ^ 16) := by
  have hfacts : (sleepCall 1000).map (fun r => (r.1.currentThread, r.1.locked)) =
      some (some 1, 0) := by decide +kernel
  obtain ⟨⟨k, k', r⟩, hs, heq⟩ := Option.map_eq_some_iff.mp hfacts
  obtain ⟨hcur, hlocked⟩ := Prod.mk.inj heq
  obtain ⟨hr, hcall⟩ := sleepCall_spec hs
  have hunlocked : k.locked ≠ schedIsLocked := by
    change k.locked = 0 at hlocked
    rw [hlocked]
    decide
  exact ⟨k, k', r, hs, (sleep_durations_iff hr hcur hunlocked).1 1000 k' r hcall⟩

/-- A sleep of 65537 ticks is over at the first. -/
theorem long_sleep_is_cut : ∃ k k' r, sleepCall 65537 = some (k, k', r) ∧
    SleepsFor discoveryBoard 1 k' 1 ∧ ¬ SleepsFor discoveryBoard 1 k' 65537 := by
  have hfacts : (sleepCall 65537).map (fun r => (r.1.currentThread, r.1.locked)) =
      some (some 1, 0) := by decide +kernel
  obtain ⟨⟨k, k', r⟩, hs, heq⟩ := Option.map_eq_some_iff.mp hfacts
  obtain ⟨hcur, hlocked⟩ := Prod.mk.inj heq
  obtain ⟨hr, hcall⟩ := sleepCall_spec hs
  have hunlocked : k.locked ≠ schedIsLocked := by
    change k.locked = 0 at hlocked
    rw [hlocked]
    decide
  have hiff := fun n hn => msleep_sleepsFor_iff (n := n) hr hcur hunlocked hcall hn
  refine ⟨k, k', r, hs, (hiff 1 (by decide)).mpr (by decide), fun hlong => ?_⟩
  exact absurd ((hiff 65537 (by decide)).mp hlong) (by decide)

end PosixRtos.Kernel
