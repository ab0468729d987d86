import PosixRtos.Kernel.Interference

/-! The users of one mutex. Each thread is outside of `pthread_mutex_lock`, in
the loop of that function, or past it; the atomic steps are the attempts
`__pthread_mutex_lock`, `pthread_mutex_unlock`, and whatever else the kernel
does. A woken waiter competes again, and the loop gives up after
`MUTEX_RECURSIVE_MAX` lost attempts. -/
namespace PosixRtos.Kernel

open PosixRtos.Library.Rings PosixRtos.Library.Runs IntrusiveList

/-- `locking left` is the loop of `pthread_mutex_lock` after an attempt that
returned `-EAGAIN`, with `left` attempts to go; `critical` is after its return. -/
inductive MutexPc where
  | outside
  | locking (left : Nat)
  | critical
deriving DecidableEq

structure MutexUsers where
  kernel : State
  pc : Tid → MutexPc

/-- `lock`, `retry`, `giveUp` and `unlock` are taken by the current thread.
`dispatch` lets any runnable thread go on. -/
inductive MutexAct where
  | lock
  | retry
  | giveUp
  | unlock
  | env (op : Op)
  | dispatch (thread : Tid)

/-- The body of the loop of `pthread_mutex_lock` with the loop variable `i`. -/
def MutexUsers.attempt (s : MutexUsers) (m : Nat) (t : Tid) (i : Nat) : Option MutexUsers := do
  let (k, ret) ← rawPthreadMutexLock s.kernel m
  some ⟨k, Function.update s.pc t (if ret = -EAGAIN then .locking (i - 1) else .critical)⟩

def MutexUsers.inLoop (s : MutexUsers) (t : Tid) : Prop := ∃ left, s.pc t = .locking left

instance (s : MutexUsers) (t : Tid) : Decidable (s.inLoop t) :=
  match h : s.pc t with
  | .locking left => .isTrue ⟨left, h⟩
  | .outside => .isFalse fun ⟨_, hl⟩ => MutexPc.noConfusion (h.symm.trans hl)
  | .critical => .isFalse fun ⟨_, hl⟩ => MutexPc.noConfusion (h.symm.trans hl)

def mutexStep (board : Board) (m : Nat) (s : MutexUsers) : MutexAct → Option MutexUsers
  | .lock => do
      let t ← s.kernel.currentThread
      if s.inLoop t then none else s.attempt m t mutexRecursiveMax
  | .retry => do
      let t ← s.kernel.currentThread
      match s.pc t with
      | .locking (i + 1) => s.attempt m t (i + 1)
      | _ => none
  | .giveUp => do
      let t ← s.kernel.currentThread
      if s.pc t = .locking 0 then some { s with pc := Function.update s.pc t .critical } else none
  | .unlock => do
      let t ← s.kernel.currentThread
      if s.inLoop t then none
      else do
        let (k, _) ← pthreadMutexUnlock s.kernel m
        some ⟨k, Function.update s.pc t .outside⟩
  | .env op =>
      if op.UsesMutex m then none
      else (step board s.kernel op).map fun k => { s with kernel := k }
  | .dispatch t => (s.kernel.dispatch t).map fun k => { s with kernel := k }

/-- A kernel that has come up, with the mutex just initialised. -/
structure MutexUsers.Initial (board : Board) (m : Nat) (s : MutexUsers) : Prop where
  reachable : Reachable board s.kernel
  free : s.kernel.ownThread m = none
  nobody : listIsEmpty s.kernel.links (.head (.mutexWait m)) = true
  outside : ∀ t, s.pc t = .outside

/-- Every thread repeats lock, critical section, unlock. -/
def Bracketed (s : MutexUsers) : MutexAct → Prop
  | .lock => ∀ t, s.kernel.currentThread = some t → s.pc t = .outside
  | .unlock => ∀ t, s.kernel.currentThread = some t → s.pc t = .critical
  | _ => True

/-- No call loses its last attempt. -/
def LastAttemptWins (m : Nat) (s : MutexUsers) : MutexAct → Prop
  | .retry => ∀ t, s.kernel.currentThread = some t → s.pc t = .locking 1 →
      s.kernel.ownThread m = none ∨ s.kernel.ownThread m = some t
  | _ => True

/-- No handler that has interrupted the loop of `pthread_mutex_lock` blocks. -/
def HandlersReturn (s : MutexUsers) : MutexAct → Prop
  | .env op => s.kernel.Blocks op → ∀ t, s.kernel.currentThread = some t → ¬ s.inLoop t
  | _ => True

variable {board : Board} {m : Nat} {s s' : MutexUsers} {L L' : Head → List Tid} {t u : Tid}
  {act : MutexAct}

/-! What the steps do. -/

/-- The three outcomes of an attempt. -/
inductive Attempted (m : Nat) (s : MutexUsers) (L : Head → List Tid) (t : Tid) (i : Nat) :
    MutexUsers → (Head → List Tid) → Prop
  | took {s' : MutexUsers} (hfree : s.kernel.ownThread m = none)
      (hown : s'.kernel.ownThread m = some t) (hpc : s'.pc = Function.update s.pc t .critical) :
      Attempted m s L t i s' L
  | had {s' : MutexUsers} (hown : s.kernel.ownThread m = some t)
      (hkernel : s'.kernel = s.kernel) (hpc : s'.pc = Function.update s.pc t .critical) :
      Attempted m s L t i s' L
  | lost {s' : MutexUsers} (owner : Tid) (hown : s.kernel.ownThread m = some owner)
      (hne : owner ≠ t) (hpark : Parks s.kernel L t (.mutexWait m) s'.kernel)
      (hpc : s'.pc = Function.update s.pc t (.locking (i - 1))) :
      Attempted m s L t i s' (moved L t (.mutexWait m))

theorem attempt_spec {i : Nat} (hi : Inv s.kernel L) (hc : s.kernel.CurrentRunnable)
    (ht : s.kernel.currentThread = some t) (hs : s.attempt m t i = some s') :
    ∃ L', Attempted m s L t i s' L' ∧ Inv s'.kernel L' ∧ s'.kernel.CurrentRunnable := by
  obtain ⟨⟨k, ret⟩, hcall, hs⟩ := Option.bind_eq_some_iff.mp hs
  cases hs
  rcases rawPthreadMutexLock_cases hcall with ⟨hnone, -, -⟩ | ⟨t', ht', hcase⟩
  · rw [ht] at hnone
    cases hnone
  rw [ht] at ht'
  cases ht'
  rcases hcase with ⟨hfree, rfl, rfl⟩ | ⟨hown, rfl, rfl⟩ | ⟨owner, hown, hne, rfl, hsuspend⟩
  · exact ⟨L, .took hfree (Function.update_self ..) rfl,
      hi.congr .outside, hc⟩
  · exact ⟨L, .had hown rfl rfl, hi, hc⟩
  · have hpark := suspendOn_spec hi (hc t ht).1 (Head.isWait_mutexWait m) hsuspend
    exact ⟨_, .lost owner hown hne hpark rfl, hpark.inv, hpark.current⟩

/-- The outcomes of `pthread_mutex_unlock`. -/
inductive Released (m : Nat) (s : MutexUsers) (L : Head → List Tid) (t : Tid) :
    MutexUsers → (Head → List Tid) → Prop
  | idle {s' : MutexUsers} (hown : s.kernel.ownThread m = some t)
      (hnobody : L (.mutexWait m) = []) (hfree : s'.kernel.ownThread m = none) :
      Released m s L t s' L
  | woke {s' : MutexUsers} {L' : Head → List Tid} (v : Tid)
      (hown : s.kernel.ownThread m = some t) (hwaited : v ∈ L (.mutexWait m))
      (hfree : s'.kernel.ownThread m = none) (hcount : v < s'.kernel.count)
      (hrun : s'.kernel.Runnable v) (hsub : L' (.mutexWait m) ⊆ L (.mutexWait m)) :
      Released m s L t s' L'
  | refused {s' : MutexUsers} (hown : s.kernel.ownThread m ≠ some t)
      (hkernel : s'.kernel = s.kernel) : Released m s L t s' L

theorem unlock_spec (hi : Inv s.kernel L) (hc : s.kernel.CurrentRunnable)
    (ht : s.kernel.currentThread = some t) {k : State} {ret : Int}
    (hs : pthreadMutexUnlock s.kernel m = some (k, ret)) (pc : Tid → MutexPc) :
    ∃ L', Released m s L t ⟨k, pc⟩ L' ∧ Inv k L' ∧ k.CurrentRunnable := by
  rcases pthreadMutexUnlock_cases hs with ⟨hnone, -, -⟩ | ⟨t', ht', hcase⟩
  · rw [ht] at hnone
    cases hnone
  rw [ht] at ht'
  cases ht'
  rcases hcase with ⟨hown, -, hwake⟩ | ⟨hown, -, rfl⟩
  · have hi₁ : Inv { s.kernel with
        ownThread := Function.update s.kernel.ownThread m none } L :=
      hi.congr .outside
    obtain ⟨hnobody, rfl⟩ | ⟨v, rest, hlist, hrun, -, hp⟩ := wakeFirst_spec hi₁ hwake
    · exact ⟨L, .idle hown hnobody (Function.update_self ..), hi₁, hc⟩
    · have hmem : v ∈ L (.mutexWait m) := by simp [hlist]
      refine ⟨_, .woke v hown hmem ?_ ?_ hrun (hp.shrink _ (by simp)).subset, hp.inv, hp.current⟩
      · change k.ownThread m = none
        rw [hp.ownThread]
        exact Function.update_self ..
      · exact hp.inv.created (mem_moved_self ..)
  · exact ⟨L, .refused hown rfl, hi, hc⟩

/-- The thread that made the attempt is past the loop, or in it with one attempt
less; nobody else moved. -/
theorem Attempted.pc {i : Nat} (ha : Attempted m s L t i s' L') :
    (s'.kernel.ownThread m = some t ∧ s'.pc = Function.update s.pc t .critical) ∨
      (∃ owner, owner ≠ t ∧ s.kernel.ownThread m = some owner ∧
        s'.kernel.ownThread m = some owner ∧
        s'.pc = Function.update s.pc t (.locking (i - 1))) := by
  cases ha with
  | took hfree hown hpc => exact .inl ⟨hown, hpc⟩
  | had hown hkernel hpc => exact .inl ⟨by rw [hkernel, hown], hpc⟩
  | lost owner hown hne hpark hpc =>
    exact .inr ⟨owner, hne, hown, by rw [hpark.ownThread, hown], hpc⟩

theorem left_update {pc : Tid → MutexPc} (hleft : ∀ u, pc u ≠ .locking 0) {place : MutexPc}
    (hplace : place ≠ .locking 0) : ∀ u, Function.update pc t place u ≠ .locking 0 := by
  intro u
  by_cases hut : u = t
  · rw [hut, Function.update_self]
    exact hplace
  · rw [Function.update_of_ne hut]
    exact hleft u

/-- Attempts remain to every thread in the loop, as long as no call loses its
last one. -/
theorem Attempted.left {i : Nat} (ha : Attempted m s L t (i + 1) s' L')
    (hleft : ∀ u, s.pc u ≠ .locking 0)
    (hlast : i = 0 → s.kernel.ownThread m = none ∨ s.kernel.ownThread m = some t) :
    ∀ u, s'.pc u ≠ .locking 0 := by
  rcases ha.pc with ⟨-, hpc⟩ | ⟨owner, hne, hown, -, hpc⟩
  · rw [hpc]
    exact left_update hleft (by simp)
  · rw [hpc]
    apply left_update hleft
    intro hzero
    rcases hlast (MutexPc.locking.inj hzero) with hnone | hself
    · rw [hown] at hnone
      cases hnone
    · rw [hown] at hself
      exact hne (Option.some.inj hself)

/-! Mutual exclusion. -/

structure Exclusive (m : Nat) (s : MutexUsers) : Prop where
  sound : ∃ L, Inv s.kernel L ∧ s.kernel.CurrentRunnable
  left : ∀ t, s.pc t ≠ .locking 0
  owner : ∀ t, s.pc t = .critical → s.kernel.ownThread m = some t

theorem Exclusive.attempt {i : Nat} (he : Exclusive m s) (ha : Attempted m s L t (i + 1) s' L')
    (hsound : Inv s'.kernel L' ∧ s'.kernel.CurrentRunnable)
    (hlast : i = 0 → s.kernel.ownThread m = none ∨ s.kernel.ownThread m = some t)
    (htaken : s.kernel.ownThread m = none ∨ s'.kernel.ownThread m = s.kernel.ownThread m) :
    Exclusive m s' := by
  refine ⟨⟨L', hsound⟩, ha.left he.left hlast, ?_⟩
  intro u hu
  have hother : u ≠ t → s'.kernel.ownThread m = some u := by
    intro hut
    have hcritical : s.pc u = .critical := by
      rcases ha.pc with ⟨-, hpc⟩ | ⟨-, -, -, -, hpc⟩ <;>
        rwa [hpc, Function.update_of_ne hut] at hu
    have hown := he.owner u hcritical
    rcases htaken with hfree | hsame
    · rw [hown] at hfree
      cases hfree
    · rw [hsame, hown]
  by_cases hut : u = t
  · subst hut
    rcases ha.pc with ⟨hown, -⟩ | ⟨-, -, -, -, hpc⟩
    · exact hown
    · simp [hpc] at hu
  · exact hother hut

theorem Attempted.taken {i : Nat} (ha : Attempted m s L t i s' L') :
    s.kernel.ownThread m = none ∨ s'.kernel.ownThread m = s.kernel.ownThread m := by
  cases ha with
  | took hfree hown hpc => exact .inl hfree
  | had hown hkernel hpc => exact .inr (by rw [hkernel])
  | lost owner hown hne hpark hpc => exact .inr (by rw [hpark.ownThread])

/-- The owner leaves the critical section, and nobody else was in it. -/
theorem Exclusive.unlock {k : State} (he : Exclusive m s)
    (hsound : ∃ L, Inv k L ∧ k.CurrentRunnable) (hpc : s.pc t = .critical) :
    Exclusive m ⟨k, Function.update s.pc t .outside⟩ := by
  refine ⟨hsound, left_update he.left (by simp), ?_⟩
  intro u hu
  by_cases hut : u = t
  · subst hut
    simp at hu
  · simp only [Function.update_of_ne hut] at hu
    have hother := he.owner u hu
    rw [he.owner t hpc] at hother
    exact absurd (Option.some.inj hother).symm hut

theorem Exclusive.step (he : Exclusive m s) (hbr : Bracketed s act)
    (hlast : LastAttemptWins m s act) (hs : mutexStep board m s act = some s') :
    Exclusive m s' := by
  obtain ⟨L, hi, hc⟩ := he.sound
  cases act with
  | lock =>
    obtain ⟨t, ht, hs⟩ := Option.bind_eq_some_iff.mp hs
    split at hs
    · cases hs
    obtain ⟨L', ha, hsound⟩ := attempt_spec hi hc ht hs
    exact he.attempt ha hsound (fun h => absurd h (by decide)) ha.taken
  | retry =>
    obtain ⟨t, ht, hs⟩ := Option.bind_eq_some_iff.mp hs
    split at hs
    · next i hpc =>
      obtain ⟨L', ha, hsound⟩ := attempt_spec hi hc ht hs
      refine he.attempt ha hsound (fun h => hlast t ht ?_) ha.taken
      rw [hpc, h]
    · cases hs
  | giveUp =>
    obtain ⟨t, -, hs⟩ := Option.bind_eq_some_iff.mp hs
    rw [if_neg (he.left t)] at hs
    cases hs
  | unlock =>
    obtain ⟨t, ht, hs⟩ := Option.bind_eq_some_iff.mp hs
    split at hs
    · cases hs
    obtain ⟨⟨k, ret⟩, hcall, hs⟩ := Option.bind_eq_some_iff.mp hs
    cases hs
    obtain ⟨L', -, hsound⟩ := unlock_spec hi hc ht hcall (Function.update s.pc t .outside)
    exact he.unlock ⟨L', hsound⟩ (hbr t ht)
  | env op =>
    rw [mutexStep] at hs
    split at hs
    · cases hs
    next hm =>
    obtain ⟨k, hstep, rfl⟩ := Option.map_eq_some_iff.mp hs
    obtain ⟨L', hframe⟩ := step_frame hi hc hstep
    refine ⟨⟨L', hframe.inv, hframe.current⟩, he.left, fun t ht => ?_⟩
    rw [(hframe.mutex m hm).1]
    exact he.owner t ht
  | dispatch t =>
    obtain ⟨k, hstep, rfl⟩ := Option.map_eq_some_iff.mp hs
    obtain ⟨rfl, hsound⟩ := dispatch_inv hi hstep
    exact ⟨⟨L, hsound⟩, he.left, he.owner⟩

theorem MutexUsers.Initial.exclusive (hinit : s.Initial board m) : Exclusive m s where
  sound := hinit.reachable.inv
  left t := by simp [hinit.outside t]
  owner t ht := by simp [hinit.outside t] at ht

/-- As long as no `pthread_mutex_lock` loses its last attempt, a thread past it
owns the mutex, and so two threads are never in the critical section. -/
theorem mutex_excludes {s₀ : MutexUsers} (hinit : s₀.Initial board m)
    (hrun : Reaches (mutexStep board m) (fun s act => Bracketed s act ∧ LastAttemptWins m s act)
      s₀ s) :
    (∀ t, s.pc t = .critical → s.kernel.ownThread m = some t) ∧
      ∀ t u, s.pc t = .critical → s.pc u = .critical → t = u := by
  have he : Exclusive m s := hrun.invariant (Exclusive m) hinit.exclusive
    fun s act s' he hok hs => he.step hok.1 hok.2 hs
  refine ⟨he.owner, fun t u ht hu => ?_⟩
  have hown := he.owner t ht
  rw [he.owner u hu] at hown
  exact (Option.some.inj hown).symm

/-! No waiter is left behind. -/

/-- A free mutex with waiters has a runnable thread in the loop. -/
structure NoneStuck (m : Nat) (s : MutexUsers) (L : Head → List Tid) : Prop where
  inv : Inv s.kernel L
  current : s.kernel.CurrentRunnable
  left : ∀ t, s.pc t ≠ .locking 0
  waiting : ∀ t ∈ L (.mutexWait m), s.inLoop t
  retrying : s.kernel.ownThread m = none → L (.mutexWait m) ≠ [] →
    ∃ t < s.kernel.count, s.kernel.Runnable t ∧ s.inLoop t

theorem NoneStuck.attempt {i : Nat} (hn : NoneStuck m s L) (ha : Attempted m s L t (i + 1) s' L')
    (hsound : Inv s'.kernel L' ∧ s'.kernel.CurrentRunnable)
    (hlast : i = 0 → s.kernel.ownThread m = none ∨ s.kernel.ownThread m = some t)
    (hruns : t ∉ L (.mutexWait m)) : NoneStuck m s' L' := by
  -- after an attempt the mutex is owned
  have howned : s'.kernel.ownThread m ≠ none := by
    rcases ha.pc with ⟨hown, -⟩ | ⟨owner, -, -, hown, -⟩ <;> simp [hown]
  refine ⟨hsound.1, hsound.2, ha.left hn.left hlast, ?_, fun h => absurd h howned⟩
  intro u hu
  by_cases hut : u = t
  · subst hut
    cases ha with
    | took hfree hown hpc | had hown hkernel hpc => exact absurd hu hruns
    | lost owner hown hne hpark hpc => exact ⟨i, by simp [hpc]⟩
  · have hold : u ∈ L (.mutexWait m) := by
      cases ha with
      | took hfree hown hpc | had hown hkernel hpc => exact hu
      | lost owner hown hne hpark hpc => exact (mem_moved_of_ne hut _ _).mp hu
    obtain ⟨left, hleft⟩ := hn.waiting u hold
    refine ⟨left, ?_⟩
    rcases ha.pc with ⟨-, hpc⟩ | ⟨-, -, -, -, hpc⟩ <;> rw [hpc, Function.update_of_ne hut, hleft]

/-- The waiter that an unlock wakes is in the loop. -/
theorem NoneStuck.unlock {k : State} (hn : NoneStuck m s L)
    (hrel : Released m s L t ⟨k, Function.update s.pc t .outside⟩ L')
    (hsound : Inv k L' ∧ k.CurrentRunnable) (hloop : ¬ s.inLoop t) :
    NoneStuck m ⟨k, Function.update s.pc t .outside⟩ L' := by
  have hstay : ∀ u, s.inLoop u → ∃ left, Function.update s.pc t .outside u = .locking left := by
    rintro u ⟨left, hu⟩
    have hut : u ≠ t := by
      rintro rfl
      exact hloop ⟨left, hu⟩
    exact ⟨left, by rw [Function.update_of_ne hut, hu]⟩
  refine ⟨hsound.1, hsound.2, left_update hn.left (by simp), ?_, ?_⟩
  · intro u hu
    cases hrel with
    | idle hown hnobody hfree => exact hstay u (hn.waiting u hu)
    | woke v hown hwaited hfree hcount hrun hsub => exact hstay u (hn.waiting u (hsub hu))
    | refused hown hkernel => exact hstay u (hn.waiting u hu)
  · intro hfree hne
    cases hrel with
    | idle hown hnobody hfree => exact absurd hnobody hne
    | woke v hown hwaited hfree hcount hrun hsub =>
      exact ⟨v, hcount, hrun, hstay v (hn.waiting v hwaited)⟩
    | refused hown hkernel =>
      cases hkernel
      obtain ⟨v, hcount, hrun, hv⟩ := hn.retrying hfree hne
      exact ⟨v, hcount, hrun, hstay v hv⟩

/-- A step on other objects may take waiters off the list, and leaves a runnable
thread in the loop runnable. -/
theorem NoneStuck.frame {k : State} {op : Op} (hn : NoneStuck m s L)
    (hframe : Frame s.kernel L op k L') (hm : ¬ op.UsesMutex m)
    (hreturn : HandlersReturn s (.env op)) : NoneStuck m { s with kernel := k } L' := by
  obtain ⟨hown, hsub⟩ := hframe.mutex m hm
  refine ⟨hframe.inv, hframe.current, hn.left, fun u hu => hn.waiting u (hsub hu), ?_⟩
  intro hfree hne
  have hold : L (.mutexWait m) ≠ [] := by
    intro hnil
    exact hne (List.subset_nil.mp (hnil ▸ hsub))
  obtain ⟨v, hcount, hrun, hv⟩ := hn.retrying (hown ▸ hfree) hold
  refine ⟨v, hcount.trans_le hframe.count, hframe.runnable v hcount hrun ?_, hv⟩
  intro hblocks hcur
  exact hreturn hblocks v hcur hv

theorem NoneStuck.step (hn : NoneStuck m s L) (hlast : LastAttemptWins m s act)
    (hreturn : HandlersReturn s act) (hs : mutexStep board m s act = some s') :
    ∃ L', NoneStuck m s' L' := by
  cases act with
  | lock =>
    obtain ⟨t, ht, hs⟩ := Option.bind_eq_some_iff.mp hs
    split at hs
    · cases hs
    obtain ⟨L', ha, hsound⟩ := attempt_spec hn.inv hn.current ht hs
    exact ⟨L', hn.attempt ha hsound (fun h => absurd h (by decide))
      (current_notMem_wait hn.inv hn.current ht (Head.isWait_mutexWait m))⟩
  | retry =>
    obtain ⟨t, ht, hs⟩ := Option.bind_eq_some_iff.mp hs
    split at hs
    · next i hpc =>
      obtain ⟨L', ha, hsound⟩ := attempt_spec hn.inv hn.current ht hs
      refine ⟨L', hn.attempt ha hsound (fun h => hlast t ht ?_)
        (current_notMem_wait hn.inv hn.current ht (Head.isWait_mutexWait m))⟩
      rw [hpc, h]
    · cases hs
  | giveUp =>
    obtain ⟨t, -, hs⟩ := Option.bind_eq_some_iff.mp hs
    rw [if_neg (hn.left t)] at hs
    cases hs
  | unlock =>
    obtain ⟨t, ht, hs⟩ := Option.bind_eq_some_iff.mp hs
    split at hs
    · cases hs
    next hloop =>
    obtain ⟨⟨k, ret⟩, hcall, hs⟩ := Option.bind_eq_some_iff.mp hs
    cases hs
    obtain ⟨L', hrel, hsound⟩ :=
      unlock_spec hn.inv hn.current ht hcall (Function.update s.pc t .outside)
    exact ⟨L', hn.unlock hrel hsound hloop⟩
  | env op =>
    rw [mutexStep] at hs
    split at hs
    · cases hs
    next hm =>
    obtain ⟨k, hstep, rfl⟩ := Option.map_eq_some_iff.mp hs
    obtain ⟨L', hframe⟩ := step_frame hn.inv hn.current hstep
    exact ⟨L', hn.frame hframe hm hreturn⟩
  | dispatch t =>
    obtain ⟨k, hstep, rfl⟩ := Option.map_eq_some_iff.mp hs
    obtain ⟨rfl, hi', hc'⟩ := dispatch_inv hn.inv hstep
    exact ⟨L, hi', hc', hn.left, hn.waiting, hn.retrying⟩

end PosixRtos.Kernel
