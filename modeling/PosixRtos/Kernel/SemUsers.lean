import PosixRtos.Kernel.Schedule
import PosixRtos.Kernel.MutexUsers
import PosixRtos.Library.Counting

/-! The users of one semaphore. `sem_wait` repeats the attempt `__sem_wait`
until it succeeds; `sem_post` may come from a thread or from an interrupt. -/
namespace PosixRtos.Kernel

open PosixRtos.Library.Rings PosixRtos.Library.Runs PosixRtos.Library.Counting IntrusiveList

/-- `waiting` is the loop of `sem_wait` after an attempt that failed. -/
inductive SemPc where
  | outside
  | waiting
deriving DecidableEq

/-- `posts` and `takes` count the `sem_post` calls that raised the value and the
`sem_wait` calls that have taken a unit; a call counts once. -/
structure SemUsers where
  kernel : State
  pc : Tid → SemPc
  posts : Nat
  takes : Nat

inductive SemAct where
  | wait
  | retry
  | post
  | env (op : Op)
  | dispatch (thread : Tid)

def SemUsers.attempt (s : SemUsers) (sem : Nat) (t : Tid) : Option SemUsers := do
  let (k, ret) ← rawSemWait s.kernel sem
  if ret = 0 then
    some { s with kernel := k, pc := Function.update s.pc t .outside, takes := s.takes + 1 }
  else some { s with kernel := k, pc := Function.update s.pc t .waiting }

/-- A thread does not exit in the middle of `sem_wait`. -/
def semStep (board : Board) (sem : Nat) (s : SemUsers) : SemAct → Option SemUsers
  | .wait => do
      let t ← s.kernel.currentThread
      if s.pc t = .outside then s.attempt sem t else none
  | .retry => do
      let t ← s.kernel.currentThread
      if s.pc t = .waiting then s.attempt sem t else none
  | .post => do
      let (k, _) ← semPost s.kernel sem
      let raised := (s.kernel.sem sem).value < (k.sem sem).value
      some { s with kernel := k, posts := s.posts + if raised then 1 else 0 }
  | .env op =>
      if op.UsesSem sem ∨
          (op = .exit ∧ s.kernel.currentThread.any fun t => s.pc t = .waiting) then none
      else (step board s.kernel op).map fun k => { s with kernel := k }
  | .dispatch t => (s.kernel.dispatch t).map fun k => { s with kernel := k }

/-- `sem_init(sem, 0, value)` on memory that no thread waits on. -/
structure SemUsers.Initial (board : Board) (sem value : Nat) (s : SemUsers) : Prop where
  booted : ∃ k, Reachable board k ∧ listIsEmpty k.links (.head (.semWait sem)) = true ∧
    semInit k sem value = (s.kernel, 0)
  outside : ∀ t, s.pc t = .outside
  posts : s.posts = 0
  takes : s.takes = 0

/-- In the loop of `sem_wait`, and off the wait list. -/
def Woken (pc : Tid → SemPc) (waitList : List Tid) (t : Tid) : Prop :=
  pc t = .waiting ∧ t ∉ waitList

instance (pc : Tid → SemPc) (waitList : List Tid) : DecidablePred (Woken pc waitList) :=
  fun _ => inferInstanceAs (Decidable (_ ∧ _))

/-- No unit is lost or invented, and no waiter sleeps beside a unit that nobody
else is going to take. -/
structure Conserves (sem value : Nat) (s : SemUsers) (L : Head → List Tid) : Prop where
  inv : Inv s.kernel L
  current : s.kernel.CurrentRunnable
  initValue : (s.kernel.sem sem).initValue = value
  ceiling : (s.kernel.sem sem).value ≤ value
  units : s.posts = (s.kernel.sem sem).value + s.takes
  waiting : ∀ t ∈ L (.semWait sem), s.pc t = .waiting
  claimed : L (.semWait sem) ≠ [] →
    (s.kernel.sem sem).value ≤ Nat.count (Woken s.pc (L (.semWait sem))) s.kernel.count

variable {board : Board} {sem value : Nat} {s s' : SemUsers} {L L' : Head → List Tid} {t u : Tid}
  {act : SemAct}

/-- A woken thread that leaves the loop is one less; for any other thread
nothing changes. -/
theorem count_woken_outside (pc : Tid → SemPc) (waitList : List Tid) {n : Nat} (ht : t < n) :
    Nat.count (Woken pc waitList) n ≤
      Nat.count (Woken (Function.update pc t .outside) waitList) n + 1 := by
  have hother : ∀ u, u ≠ t →
      (Woken pc waitList u ↔ Woken (Function.update pc t .outside) waitList u) := by
    intro u hut
    unfold Woken
    rw [Function.update_of_ne hut]
  have hself : ¬ Woken (Function.update pc t .outside) waitList t := by
    simp [Woken]
  by_cases hwoken : Woken pc waitList t
  · exact (count_eq_succ hother ht hwoken hself).le
  · refine (count_le_count le_rfl fun u _ hu => ?_).trans (Nat.le_succ _)
    exact (hother u fun h => hwoken (h ▸ hu)).mp hu

theorem Conserves.attempt (hs : Conserves sem value s L) (ht : s.kernel.currentThread = some t)
    (hstep : s.attempt sem t = some s') : ∃ L', Conserves sem value s' L' := by
  have hcount := (hs.current t ht).1
  have hnot := current_notMem_wait hs.inv hs.current ht (Head.isWait_semWait sem)
  obtain ⟨⟨k, ret⟩, hcall, hstep⟩ := Option.bind_eq_some_iff.mp hstep
  rcases rawSemWait_cases hcall with ⟨hpos, rfl, rfl⟩ | ⟨hzero, rfl, t', ht', hsuspend⟩
  · cases hstep
    have hvalue : ((s.kernel.setSemValue sem ((s.kernel.sem sem).value - 1)).sem sem) =
        ⟨(s.kernel.sem sem).initValue, (s.kernel.sem sem).value - 1⟩ := Function.update_self ..
    refine ⟨L, setSemValue_inv hs.inv _ _, hs.current, ?_, ?_, ?_, ?_, ?_⟩
    · rw [hvalue]
      exact hs.initValue
    · rw [hvalue]
      exact (Nat.sub_le _ _).trans hs.ceiling
    · rw [hvalue]
      have hunits := hs.units
      change s.posts = (s.kernel.sem sem).value - 1 + (s.takes + 1)
      omega
    · intro u hu
      have hut : u ≠ t := fun h => hnot (h ▸ hu)
      simpa [Function.update_of_ne hut] using hs.waiting u hu
    · intro hne
      rw [hvalue]
      have hold := hs.claimed hne
      have hless := count_woken_outside s.pc (L (.semWait sem)) hcount
      exact Nat.sub_le_of_le_add (hold.trans hless)
  · rw [ht] at ht'
    cases ht'
    cases hstep
    have hpark := suspendOn_spec hs.inv hcount (Head.isWait_semWait sem) hsuspend
    refine ⟨_, hpark.inv, hpark.current, ?_, ?_, ?_, ?_, ?_⟩
    · rw [hpark.sem]
      exact hs.initValue
    · rw [hpark.sem]
      exact hs.ceiling
    · rw [hpark.sem]
      exact hs.units
    · intro u hu
      by_cases hut : u = t
      · subst hut
        simp
      · simpa [Function.update_of_ne hut] using hs.waiting u ((mem_moved_of_ne hut _ _).mp hu)
    · intro _
      rw [hpark.sem, hzero]
      exact Nat.zero_le _

/-- The value after `sem_post`. -/
theorem incremented_sem (k : State) (sem : Nat) :
    (k.incremented sem).sem sem = ⟨(k.sem sem).initValue,
      if (k.sem sem).value < (k.sem sem).initValue then (k.sem sem).value + 1
      else (k.sem sem).value⟩ := by
  unfold State.incremented
  split
  · exact Function.update_self ..
  · rfl

theorem incremented_inv {k : State} (hi : Inv k L) (hc : k.CurrentRunnable) (sem : Nat) :
    Inv (k.incremented sem) L ∧ (k.incremented sem).CurrentRunnable ∧
      (k.incremented sem).count = k.count := by
  unfold State.incremented
  split
  · exact ⟨setSemValue_inv hi _ _, hc, rfl⟩
  · exact ⟨hi, hc, rfl⟩

theorem Conserves.post (hs : Conserves sem value s L)
    (hstep : semStep board sem s .post = some s') : ∃ L', Conserves sem value s' L' := by
  obtain ⟨⟨k, ret⟩, hcall, hstep⟩ := Option.bind_eq_some_iff.mp hstep
  cases hstep
  rcases semPost_cases hcall with ⟨-, -, rfl⟩ | ⟨-, -, hwake⟩
  · refine ⟨L, { hs with units := ?_ }⟩
    -- a refused post does not count
    rw [if_neg (lt_irrefl _)]
    exact hs.units
  obtain ⟨hi₁, hc₁, hcount₁⟩ := incremented_inv hs.inv hs.current sem
  have hsem₁ := incremented_sem s.kernel sem
  rw [hs.initValue] at hsem₁
  have hceiling := hs.ceiling
  have hunits := hs.units
  -- facts about the value that both outcomes share
  have hvalue : ∀ k : State, k.sem sem = (s.kernel.incremented sem).sem sem →
      (k.sem sem).initValue = value ∧ (k.sem sem).value ≤ value ∧
        (s.posts + if (s.kernel.sem sem).value < (k.sem sem).value then 1 else 0) =
          (k.sem sem).value + s.takes ∧
        (k.sem sem).value ≤ (s.kernel.sem sem).value + 1 := by
    intro k hk
    rw [hk, hsem₁]
    dsimp only
    by_cases hroom : (s.kernel.sem sem).value < value
    · rw [if_pos hroom, if_pos (Nat.lt_succ_self _)]
      refine ⟨rfl, ?_, ?_, ?_⟩ <;> omega
    · rw [if_neg hroom, if_neg (lt_irrefl _)]
      refine ⟨rfl, ?_, ?_, ?_⟩ <;> omega
  obtain ⟨hnobody, rfl⟩ | ⟨t, rest, hlist, -, -, hp⟩ := wakeFirst_spec hi₁ hwake
  · obtain ⟨hinit, hle, hposts, -⟩ := hvalue _ rfl
    exact ⟨L, hi₁, hc₁, hinit, hle, hposts, hs.waiting, fun hne => absurd hnobody hne⟩
  · obtain ⟨hinit, hle, hposts, hstep⟩ := hvalue k (by rw [hp.sem])
    have hmem : t ∈ L (.semWait sem) := by simp [hlist]
    have hsub := (hp.shrink (.semWait sem) (by simp)).subset
    refine ⟨_, hp.inv, hp.current, hinit, hle, hposts, fun u hu => hs.waiting u (hsub hu), ?_⟩
    intro _
    have hkcount : k.count = s.kernel.count := hp.count.trans hcount₁
    -- the thread that was woken is one more
    have hmore : Nat.count (Woken s.pc (L (.semWait sem))) s.kernel.count <
        Nat.count (Woken s.pc (moved L t (.ready ((s.kernel.incremented sem).thread t).curPrio)
          (.semWait sem))) k.count := by
      refine count_lt_count hkcount.ge (fun u _ hu => ⟨hu.1, fun h => hu.2 (hsub h)⟩)
        (hkcount ▸ hs.inv.created hmem) ⟨hs.waiting t hmem, ?_⟩ (fun _ hw => hw.2 hmem)
      rw [moved_of_ne (by simp)]
      exact notMem_without hi₁.lists _
    have hold := hs.claimed (by simp [hlist])
    exact (hstep.trans (Nat.succ_le_succ hold)).trans hmore

theorem Conserves.step (hs : Conserves sem value s L) (hstep : semStep board sem s act = some s') :
    ∃ L', Conserves sem value s' L' := by
  cases act with
  | wait =>
    obtain ⟨t, ht, hstep⟩ := Option.bind_eq_some_iff.mp hstep
    split at hstep
    · exact hs.attempt ht hstep
    · cases hstep
  | retry =>
    obtain ⟨t, ht, hstep⟩ := Option.bind_eq_some_iff.mp hstep
    split at hstep
    · exact hs.attempt ht hstep
    · cases hstep
  | post => exact hs.post hstep
  | env op =>
    rw [semStep] at hstep
    split at hstep
    · cases hstep
    next hfree =>
    obtain ⟨k, hk, rfl⟩ := Option.map_eq_some_iff.mp hstep
    obtain ⟨L', hframe⟩ := step_frame hs.inv hs.current hk
    obtain ⟨hsem, hsub⟩ := hframe.sem sem fun h => hfree (.inl h)
    refine ⟨L', hframe.inv, hframe.current, ?_, ?_, ?_, fun t ht => hs.waiting t (hsub ht), ?_⟩
    · rw [hsem]
      exact hs.initValue
    · rw [hsem]
      exact hs.ceiling
    · rw [hsem]
      exact hs.units
    · intro hne
      have hold := hs.claimed fun hnil => hne (List.subset_nil.mp (hnil ▸ hsub))
      rw [hsem]
      exact hold.trans (count_le_count hframe.count fun t _ ht => ⟨ht.1, fun h => ht.2 (hsub h)⟩)
  | dispatch t =>
    obtain ⟨k, hk, rfl⟩ := Option.map_eq_some_iff.mp hstep
    obtain ⟨rfl, hi, hc⟩ := dispatch_inv hs.inv hk
    exact ⟨L, hi, hc, hs.initValue, hs.ceiling, hs.units, hs.waiting, hs.claimed⟩

/-- `sem_init` on a semaphore without waiters. -/
theorem semInit_same {k k' : State} (hi : Inv k L) (hempty : L (.semWait sem) = [])
    (hs : semInit k sem value = (k', 0)) :
    SameQueues k k' ∧ k'.sem sem = ⟨value, 0⟩ ∧ k'.currentThread = k.currentThread := by
  unfold semInit at hs
  split at hs
  · simp [EINVAL] at hs
  cases hs
  have hlinks := listInit_of_empty hi.lists hempty
  exact ⟨⟨hlinks, rfl, rfl, rfl, fun _ => rfl, fun _ => rfl⟩, Function.update_self .., rfl⟩

theorem SemUsers.Initial.conserves (hinit : s.Initial board sem value) :
    ∃ L, Conserves sem value s L := by
  obtain ⟨k, hreach, hempty, hsem⟩ := hinit.booted
  obtain ⟨L, hi, hc⟩ := hreach.inv
  rw [listIsEmpty_head hi.lists, List.isEmpty_iff] at hempty
  obtain ⟨hsame, hvalue, hcur⟩ := semInit_same hi hempty hsem
  refine ⟨L, hi.congr hsame, hc.of_same hsame hcur, ?_, ?_, ?_, ?_, fun hne => absurd hempty hne⟩
  · rw [hvalue]
  · rw [hvalue]
    exact Nat.zero_le _
  · rw [hvalue, hinit.posts, hinit.takes]
  · simp [hempty]

/-- In every state the users of a semaphore can reach, its count is between 0
and the ceiling and equals the posts less the takes; and while threads wait, it
is no more than the number of threads that were taken off the wait list and have
not tried again. -/
theorem semaphore_conserves {s₀ : SemUsers} (hinit : s₀.Initial board sem value)
    (hrun : Reaches (semStep board sem) anyStep s₀ s) :
    ∃ L, Represents s.kernel L ∧ (s.kernel.sem sem).value ≤ value ∧
      s.posts = (s.kernel.sem sem).value + s.takes ∧
      (L (.semWait sem) ≠ [] →
        (s.kernel.sem sem).value ≤ Nat.count (Woken s.pc (L (.semWait sem))) s.kernel.count) := by
  obtain ⟨L, hs⟩ := hrun.invariant (fun s => ∃ L, Conserves sem value s L) hinit.conserves
    (fun s act s' ⟨L, hs⟩ _ hstep => hs.step hstep)
  exact ⟨L, hs.inv.represents, hs.ceiling, hs.units, hs.claimed⟩

/-- A binary semaphore on the booted machine. -/
def semBoot : Option SemUsers := do
  let k ← boot (threeThreads ++ [.start])
  some ⟨(semInit k 0 1).1, fun _ => .outside, 0, 0⟩

theorem semBoot_initial (hs : semBoot = some s) : s.Initial discoveryBoard 0 1 := by
  simp only [semBoot, Option.bind_eq_bind, Option.bind_eq_some_iff, Option.some.injEq] at hs
  obtain ⟨k, hk, rfl⟩ := hs
  refine ⟨⟨k, reachable_boot hk, ?_, ?_⟩, fun _ => rfl, rfl, rfl⟩
  · have hempty : (boot (threeThreads ++ [.start])).map (fun k =>
        listIsEmpty k.links (.head (.semWait 0))) = some true := by decide +kernel
    rw [hk] at hempty
    exact Option.some.inj hempty
  · rfl

/-- Threads 1 and 2 wait; one post wakes thread 1 only. -/
theorem two_waiters_conserve :
    ∃ s₀ s, semBoot = some s₀ ∧
      runInputs (semStep discoveryBoard 0) anyStep [.wait, .wait, .post] s₀ = some s ∧
      s.posts = 1 ∧ ∃ L, Represents s.kernel L ∧ (s.kernel.sem 0).value ≤ 1 ∧
        s.posts = (s.kernel.sem 0).value + s.takes := by
  obtain ⟨s₀, h₀⟩ := Option.isSome_iff_exists.mp (show semBoot.isSome = true by decide +kernel)
  have hposts : (semBoot.bind (runInputs (semStep discoveryBoard 0) anyStep
      [.wait, .wait, .post])).map SemUsers.posts = some 1 := by decide +kernel
  rw [h₀, Option.bind_some] at hposts
  obtain ⟨s, hs, hone⟩ := Option.map_eq_some_iff.mp hposts
  obtain ⟨L, hrep, hle, hunits, -⟩ := semaphore_conserves (semBoot_initial h₀) (.of_runInputs hs)
  exact ⟨s₀, s, h₀, hs, hone, L, hrep, hle, hunits⟩

end PosixRtos.Kernel
