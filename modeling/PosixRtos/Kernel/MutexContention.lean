import PosixRtos.Kernel.Schedule
import PosixRtos.Kernel.MutexUsers

/-! A schedule that wears a waiter down. Two threads of one priority share a
mutex; the owner unlocks, locks again before the woken waiter runs, and yields
inside its critical section. The waiter loses every attempt it makes. The steps
are those of the scheduler itself, no `dispatch` is used. -/
namespace PosixRtos.Kernel

open PosixRtos.Library.Rings PosixRtos.Library.Runs IntrusiveList

variable {board : Board} {k k' : State} {m : Nat} {p : Priority} {players ready wait : List Tid}
  {t c : Tid} {owner : Option Tid}

/-- The highest ready list is that of priority `p` and holds `ready`, the
mutex has the given owner and waiters, and `players` have priority `p`. -/
structure Contest (k : State) (m : Nat) (p : Priority) (players ready wait : List Tid)
    (current : Tid) (owner : Option Tid) : Prop where
  lists : ∃ L, Inv k L ∧ L (.ready p) = ready ∧ L (.mutexWait m) = wait ∧
    ∀ q, p < q → L (.ready q) = []
  current : k.currentThread = some current
  owner : k.ownThread m = owner
  prio : ∀ t ∈ players, t < k.count ∧ (k.thread t).curPrio = p

theorem Contest.switch (hk : Contest k m p players (t :: ready) wait c owner) :
    ∃ k', schedSwitchThread k = some k' ∧ Contest k' m p players (t :: ready) wait t owner := by
  obtain ⟨L, hi, hready, hwait, habove⟩ := hk.lists
  obtain ⟨k', hs⟩ := schedSwitchThread_isSome hi hk.current (p := p) (by simp [hready])
  obtain ⟨v, ⟨q, rest, hlist, hq⟩, hk'⟩ := schedSwitchThread_spec hi hs
  have hqp : q = p := by
    rcases lt_trichotomy q p with h | h | h
    · simp [hq p h] at hready
    · exact h
    · simp [habove q h] at hlist
  subst hqp
  have hv : v = t := by
    rw [hready] at hlist
    exact (List.cons.inj hlist).1.symm
  subst hv
  refine ⟨k', hs, ⟨L, ?_, hready, hwait, habove⟩, by rw [hk'], ?_, ?_⟩
  · rw [hk']
    exact hi.congr .outside
  · rw [hk']
    exact hk.owner
  · rw [hk']
    exact hk.prio

theorem Contest.setOwner (hk : Contest k m p players ready wait c owner) (owner' : Option Tid) :
    Contest { k with ownThread := Function.update k.ownThread m owner' } m p players ready wait c
      owner' := by
  obtain ⟨L, hi, hrest⟩ := hk.lists
  exact ⟨⟨L, hi.congr .outside, hrest⟩, hk.current,
    Function.update_self .., hk.prio⟩

/-- A player put at the tail of the ready list. -/
theorem Contest.enqueue (hk : Contest k m p players ready wait c owner) (ht : t ∈ players) :
    Contest (schedSetThreadReady k t) m p players (ready.erase t ++ [t]) (wait.erase t) c
      owner := by
  obtain ⟨L, hi, hready, hwait, habove⟩ := hk.lists
  obtain ⟨hcount, hprio⟩ := hk.prio t ht
  have hev := Evolves.enqueueReady hi hcount (.inl rfl)
  rw [hprio] at hev
  refine ⟨⟨_, hev.inv, ?_, ?_, ?_⟩, hk.current, hk.owner, ?_⟩
  · rw [moved_self, without, hready]
  · rw [moved_of_ne (by simp), without, hwait]
  · intro q hq
    rw [moved_of_ne (by simp [hq.ne']), without, habove q hq, List.erase_nil]
  · intro u hu
    obtain ⟨hucount, huprio⟩ := hk.prio u hu
    exact ⟨hucount, (k.setStatus_prio t .ready u).trans huprio⟩

/-- A player suspended on the mutex; the next ready thread runs. -/
theorem Contest.suspend {next : Tid} (hk : Contest k m p players ready wait c owner)
    (ht : t ∈ players) (hnext : ready.erase t = next :: rest) :
    ∃ k', k.suspendOn t (.mutexWait m) = some k' ∧
      Contest k' m p players (next :: rest) (wait.erase t ++ [t]) next owner := by
  obtain ⟨L, hi, hready, hwait, habove⟩ := hk.lists
  obtain ⟨hcount, hprio⟩ := hk.prio t ht
  have hpark := (hi.except hcount).park (hi.logged t hcount) (h := .mutexWait m) (by simp)
    (Head.IsWait.names (Head.isWait_mutexWait m) _)
  have hparked : Contest ((schedSetThreadSuspend k t).insertTail (.mutexWait m) t) m p players
      (next :: rest) (wait.erase t ++ [t]) c owner := by
    refine ⟨⟨_, hpark, ?_, ?_, ?_⟩, hk.current, hk.owner, ?_⟩
    · rw [moved_of_ne (by simp), without, hready, hnext]
    · rw [moved_self, without, hwait]
    · intro q hq
      rw [moved_of_ne (by simp), without, habove q hq, List.erase_nil]
    · intro u hu
      obtain ⟨hucount, huprio⟩ := hk.prio u hu
      exact ⟨hucount, (k.setStatus_prio t .suspend u).trans huprio⟩
  exact hparked.switch

theorem Contest.notMem_wait (hk : Contest k m p players ready wait c owner) (ht : t ∈ ready) :
    t ∉ wait := by
  obtain ⟨L, hi, rfl, rfl, -⟩ := hk.lists
  intro hmem
  cases hi.lists.unique ht hmem

theorem Contest.of_current {P : Tid → Prop} (hk : Contest k m p players ready wait c owner)
    (hP : P c) : ∀ t, k.currentThread = some t → P t := by
  intro t ht
  rw [hk.current] at ht
  cases ht
  exact hP

theorem not_inLoop {s : MutexUsers} {place : MutexPc} (hpc : s.pc t = place)
    (hplace : ∀ left, place ≠ .locking left) : ¬ s.inLoop t := by
  rintro ⟨left, hleft⟩
  exact hplace left (hpc.symm.trans hleft)

/-! The acts of the contest. -/

variable (board) {s s' : MutexUsers} {a b v : Tid}

/-- The acts of the schedule are bracketed, and take place outside of handlers. -/
def Tame (s : MutexUsers) (act : MutexAct) : Prop := Bracketed s act ∧ HandlersReturn s act

/-- They win their last attempt too, but for the retries. -/
def Calm (m : Nat) (s : MutexUsers) (act : MutexAct) : Prop := Tame s act ∧ LastAttemptWins m s act

/-- The owner unlocks: the first waiter is made ready, and the owner goes on. -/
theorem Contest.unlock (hk : Contest s.kernel m p players (a :: ready) (v :: wait) a (some a))
    (hv : v ∈ players) (hpc : s.pc a = .critical) :
    ∃ k', Reaches (mutexStep board m) (Calm m) s ⟨k', Function.update s.pc a .outside⟩ ∧
      Contest k' m p players (a :: ready ++ [v]) wait a none := by
  have hnot : v ∉ a :: ready := fun h => hk.notMem_wait h (by simp)
  have hwoken := (hk.setOwner none).enqueue hv
  rw [List.erase_of_not_mem hnot, List.erase_cons_head] at hwoken
  obtain ⟨k', hs, hk'⟩ := hwoken.switch
  refine ⟨k', .tail (i := .unlock) .refl ⟨⟨?_, trivial⟩, trivial⟩ ?_, hk'⟩
  · exact hk.of_current hpc
  have hcall : pthreadMutexUnlock s.kernel m = some (k', 0) := by
    obtain ⟨L, hi, -, hwait, -⟩ := (hk.setOwner none).lists
    have hhead := State.headEntry_eq hi.lists (.mutexWait m)
    rw [hwait, List.head?_cons] at hhead
    unfold pthreadMutexUnlock
    split
    · next hnone => simp [hk.current] at hnone
    · next t ht =>
      rw [hk.current] at ht
      cases ht
      simp only [hk.owner, if_true, State.wakeFirst, hhead, hs]
      rfl
  have hloop : ¬ s.inLoop a := not_inLoop hpc (by simp)
  simp [mutexStep, hk.current, hloop, hcall]

/-- The owner takes the mutex again at once. -/
theorem Contest.lock (hk : Contest s.kernel m p players ready wait a none)
    (hpc : s.pc a = .outside) :
    ∃ k', Reaches (mutexStep board m) (Calm m) s ⟨k', Function.update s.pc a .critical⟩ ∧
      Contest k' m p players ready wait a (some a) := by
  refine ⟨_, .tail (i := .lock) .refl ⟨⟨?_, trivial⟩, trivial⟩ ?_, hk.setOwner (some a)⟩
  · exact hk.of_current hpc
  have hloop : ¬ s.inLoop a := not_inLoop hpc (by simp)
  simp [mutexStep, MutexUsers.attempt, rawPthreadMutexLock, hk.current, hk.owner, hloop, EAGAIN]

/-- The current thread yields, and the next one of its priority runs. -/
theorem Contest.yield (hk : Contest s.kernel m p players (a :: b :: ready) wait a owner)
    (ha : a ∈ players) :
    ∃ k', Reaches (mutexStep board m) (Calm m) s { s with kernel := k' } ∧
      Contest k' m p players (b :: ready ++ [a]) wait b owner := by
  have hnot : a ∉ wait := hk.notMem_wait (by simp)
  have hqueue := hk.enqueue ha
  rw [List.erase_cons_head, List.erase_of_not_mem hnot] at hqueue
  obtain ⟨k', hs, hk'⟩ := hqueue.switch
  have hfirst : mutexStep board m s (.env .yieldRequeue) =
      some { s with kernel := schedSetThreadReady s.kernel a } := by
    simp [mutexStep, Op.UsesMutex, step, schedYieldRequeue, hk.current]
  have hsecond : mutexStep board m { s with kernel := schedSetThreadReady s.kernel a }
      (.env .switchThread) = some { s with kernel := k' } := by
    simp [mutexStep, Op.UsesMutex, step, hs]
  have hquiet : ∀ s : MutexUsers, Calm m s (.env .yieldRequeue) ∧ Calm m s (.env .switchThread) :=
    fun s => ⟨⟨⟨trivial, fun h => h.elim⟩, trivial⟩, ⟨⟨trivial, fun h => h.elim⟩, trivial⟩⟩
  exact ⟨k', .tail (.tail .refl (hquiet _).1 hfirst) (hquiet _).2 hsecond, hk'⟩

/-- An attempt on a mutex that another thread owns. -/
theorem Contest.attempt (hk : Contest s.kernel m p players (b :: a :: ready) wait b (some v))
    (hb : b ∈ players) (hbv : b ≠ v) (i : Nat) :
    ∃ k', s.attempt m b i = some ⟨k', Function.update s.pc b (.locking (i - 1))⟩ ∧
      Contest k' m p players (a :: ready) (wait ++ [b]) a (some v) := by
  have hnot : b ∉ wait := hk.notMem_wait (by simp)
  obtain ⟨k', hs, hk'⟩ := hk.suspend hb (List.erase_cons_head ..)
  rw [List.erase_of_not_mem hnot] at hk'
  refine ⟨k', ?_, hk'⟩
  simp [MutexUsers.attempt, rawPthreadMutexLock, hk.current, hk.owner, hbv, hs, EAGAIN]

/-- A first attempt that is lost. -/
theorem Contest.lockLost (hk : Contest s.kernel m p players (b :: a :: ready) wait b (some v))
    (hb : b ∈ players) (hbv : b ≠ v) (hpc : s.pc b = .outside) :
    ∃ k', Reaches (mutexStep board m) (Calm m) s
        ⟨k', Function.update s.pc b (.locking (mutexRecursiveMax - 1))⟩ ∧
      Contest k' m p players (a :: ready) (wait ++ [b]) a (some v) := by
  obtain ⟨k', hs, hk'⟩ := hk.attempt hb hbv mutexRecursiveMax
  refine ⟨k', .tail (i := .lock) .refl ⟨⟨?_, trivial⟩, trivial⟩ ?_, hk'⟩
  · exact hk.of_current hpc
  have hloop : ¬ s.inLoop b := not_inLoop hpc (by simp)
  simp [mutexStep, hk.current, hloop, hs]

/-- A later attempt that is lost. -/
theorem Contest.retryLost {left : Nat}
    (hk : Contest s.kernel m p players (b :: a :: ready) wait b (some v)) (hb : b ∈ players)
    (hbv : b ≠ v) (hpc : s.pc b = .locking (left + 1)) :
    ∃ k', Reaches (mutexStep board m) Tame s ⟨k', Function.update s.pc b (.locking left)⟩ ∧
      Contest k' m p players (a :: ready) (wait ++ [b]) a (some v) := by
  obtain ⟨k', hs, hk'⟩ := hk.attempt hb hbv (left + 1)
  refine ⟨k', .tail (i := .retry) .refl ⟨trivial, trivial⟩ ?_, hk'⟩
  simp [mutexStep, hk.current, hpc, hs]

/-- A thread with the default attributes joins at the tail of the ready list. -/
theorem Contest.create (hk : Contest s.kernel m 16 players ready wait a owner) :
    ∃ k', Reaches (mutexStep board m) (Calm m) s { s with kernel := k' } ∧
      Contest k' m 16 (s.kernel.count :: players) (ready ++ [s.kernel.count]) wait a owner ∧
      s.kernel.count ∉ ready ++ wait := by
  let memory : CreateMemory := ⟨true, 0x20003000⟩
  let k₁ : State := { s.kernel with
    thread := Function.update s.kernel.thread s.kernel.count
      (initThread defaultAttr .user 16 memory.stack)
    count := s.kernel.count + 1
    links := listInit s.kernel.links (.node s.kernel.count) }
  have hcreate : rawPthreadCreate s.kernel none memory = some (k₁, s.kernel.count) := rfl
  obtain ⟨L, hi, hready, hwait, habove⟩ := hk.lists
  obtain ⟨-, -, hexcept⟩ := rawPthreadCreate_spec hi hcreate
  have hprio : (k₁.thread s.kernel.count).curPrio = 16 := by simp [k₁, initThread]
  have hinsert := schedInsertThread_inv hexcept
  rw [hprio] at hinsert
  have hnew : ∀ h, s.kernel.count ∉ L h := fun h hmem => (hi.created hmem).false
  have hstep : mutexStep board m s (.env (.create none memory)) =
      some { s with kernel := schedInsertThread k₁ s.kernel.count } := rfl
  have hcalm : Calm m s (.env (.create none memory)) := ⟨⟨trivial, fun h => h.elim⟩, trivial⟩
  refine ⟨_, .tail .refl hcalm hstep,
    ⟨⟨_, hinsert, ?_, ?_, ?_⟩, hk.current, hk.owner, ?_⟩, ?_⟩
  · rw [moved_self, without, List.erase_of_not_mem (hnew _), hready]
  · rw [moved_of_ne (by simp), without, List.erase_of_not_mem (hnew _), hwait]
  · intro q hq
    rw [moved_of_ne (by simp [hq.ne']), without, habove q hq, List.erase_nil]
  · have hself : ((schedInsertThread k₁ s.kernel.count).thread s.kernel.count).curPrio = 16 := by
      simpa [schedInsertThread, schedSetThreadReady, State.enqueueReady] using hprio
    intro u hu
    rcases List.mem_cons.mp hu with rfl | hu
    · exact ⟨Nat.lt_succ_self _, hself⟩
    · obtain ⟨hlt, huprio⟩ := hk.prio u hu
      refine ⟨Nat.lt_succ_of_lt hlt, ?_⟩
      simpa [schedInsertThread, schedSetThreadReady, State.enqueueReady, k₁,
        Function.update_of_ne hlt.ne] using huprio
  · rw [← hready, ← hwait]
    simp [hnew]

/-- `b` waits and has lost all but `left` attempts, `a` is in the critical section. -/
structure Round (s : MutexUsers) (m : Nat) (p : Priority) (a b : Tid) (left : Nat) : Prop where
  contest : Contest s.kernel m p [a, b] [a] [b] a (some a)
  owner : s.pc a = .critical
  waiter : s.pc b = .locking left
  outside : ∀ t, t ≠ a → t ≠ b → s.pc t = .outside

/-- The owner leaves and enters again and yields inside; `b` is made ready, runs
and is suspended once more. -/
theorem Round.next {left : Nat} (hr : Round s m p a b (left + 1)) (hab : a ≠ b) :
    ∃ s', Reaches (mutexStep board m) Tame s s' ∧ Round s' m p a b left := by
  obtain ⟨k₁, hrun₁, hk₁⟩ := hr.contest.unlock board (by simp) hr.owner
  obtain ⟨k₂, hrun₂, hk₂⟩ := Contest.lock board
    (s := ⟨k₁, Function.update s.pc a .outside⟩) hk₁ (by simp)
  obtain ⟨k₃, hrun₃, hk₃⟩ := Contest.yield board
    (s := ⟨k₂, Function.update (Function.update s.pc a .outside) a .critical⟩) hk₂ (by simp)
  obtain ⟨k₄, hrun₄, hk₄⟩ := Contest.retryLost board
    (s := ⟨k₃, Function.update (Function.update s.pc a .outside) a .critical⟩) hk₃ (by simp)
    hab.symm (show _ = MutexPc.locking (left + 1) by simp [hab.symm, hr.waiter])
  have hcalm := hrun₃.trans (hrun₂.trans hrun₁)
  refine ⟨_, hrun₄.trans (hcalm.mono fun _ _ h => h.1), hk₄, ?_, by simp, ?_⟩
  · simp [hab]
  · intro t hta htb
    simp [hta, htb, hr.outside t hta htb]

theorem Round.wornDown {left : Nat} (hr : Round s m p a b left) (hab : a ≠ b) :
    ∃ s', Reaches (mutexStep board m) Tame s s' ∧ Round s' m p a b 0 := by
  induction left generalizing s with
  | zero => exact ⟨s, .refl, hr⟩
  | succ left ih =>
    obtain ⟨s₁, hrun₁, hr₁⟩ := hr.next board hab
    obtain ⟨s₂, hrun₂, hr₂⟩ := ih hr₁
    exact ⟨s₂, hrun₂.trans hrun₁, hr₂⟩

/-- A third thread arrives and waits behind `b`, and the owner unlocks: `b` is
woken, with whatever attempts it has left, and the third thread is not. -/
theorem Round.handOver {left : Nat} (hr : Round s m 16 a b left) (hab : a ≠ b) :
    ∃ s' c, Reaches (mutexStep board m) (Calm m) s s' ∧
      Contest s'.kernel m 16 [c, a, b] [a, b] [c] a none ∧ s'.pc b = .locking left ∧
      ∀ t, t ≠ b → t ≠ c → s'.pc t = .outside := by
  obtain ⟨k₁, hrun₁, hk₁, hfresh⟩ := hr.contest.create board
  generalize s.kernel.count = c at hk₁ hfresh
  simp only [List.cons_append, List.nil_append, List.mem_cons, List.not_mem_nil, or_false,
    not_or] at hfresh
  obtain ⟨hca, hcb⟩ := hfresh
  obtain ⟨k₂, hrun₂, hk₂⟩ := Contest.yield board (s := { s with kernel := k₁ }) hk₁ (by simp)
  obtain ⟨k₃, hrun₃, hk₃⟩ := Contest.lockLost board (s := { s with kernel := k₂ }) hk₂ (by simp) hca
    (hr.outside c hca hcb)
  obtain ⟨k₄, hrun₄, hk₄⟩ := Contest.unlock board
    (s := ⟨k₃, Function.update s.pc c (.locking (mutexRecursiveMax - 1))⟩) hk₃ (by simp)
    (by simp [Ne.symm hca, hr.owner])
  refine ⟨_, c, hrun₄.trans (hrun₃.trans (hrun₂.trans hrun₁)), hk₄, ?_, ?_⟩
  · simp [hab.symm, Ne.symm hcb, hr.waiter]
  · intro t htb htc
    by_cases hta : t = a
    · subst hta
      simp
    · simp [hta, htc, hr.outside t hta htb]

/-! The schedule on the booted machine. -/

omit board in
/-- After `sched_start` thread 1 runs, thread 2 is behind it. -/
theorem contest_started (hk : boot (threeThreads ++ [.start]) = some k) :
    Contest k 0 16 [1, 2] [1, 2] [] 1 none := by
  have hlinks : (boot (threeThreads ++ [.start])).map (fun k =>
      (k.links.next (.head (.ready 16)), k.links.next (.node 1), k.links.next (.node 2),
        k.links.next (.head (.mutexWait 0)))) =
      some (.node 1, .node 2, .head (.ready 16), .head (.mutexWait 0)) := by decide +kernel
  have hfields : (boot (threeThreads ++ [.start])).map (fun k =>
      (k.threadReadyGroup, k.currentThread, k.ownThread 0, k.count, (k.thread 1).curPrio,
        (k.thread 2).curPrio)) = some (0x10001#32, some 1, none, 3, 16, 16) := by decide +kernel
  rw [hk] at hlinks hfields
  simp only [Option.map_some, Option.some.injEq, Prod.mk.injEq] at hlinks hfields
  obtain ⟨hfirst, hsecond, hlast, hwait⟩ := hlinks
  obtain ⟨hgroup, hcur, hown, hcount, hprio₁, hprio₂⟩ := hfields
  obtain ⟨L, hi, -⟩ := (reachable_boot hk).inv
  have hready : L (.ready 16) = [1, 2] :=
    hi.lists.eq_of_walk (by simp [hfirst, hsecond, hlast])
  have hempty : L (.mutexWait 0) = [] := hi.lists.eq_of_walk (by simp [hwait])
  refine ⟨⟨L, hi, hready, hempty, ?_⟩, hcur, hown, ?_⟩
  · intro q hq
    have hbits : ∀ q : Priority, 16 < q → (0x10001#32).getLsbD q = false := by decide
    by_contra hne
    have hbit := (hi.group q).mpr hne
    rw [hgroup, hbits q hq] at hbit
    cases hbit
  · intro t ht
    rw [hcount]
    simp only [List.mem_cons, List.not_mem_nil, or_false] at ht
    rcases ht with rfl | rfl
    · exact ⟨by decide, hprio₁⟩
    · exact ⟨by decide, hprio₂⟩

omit board in
theorem users_initial (hk : boot (threeThreads ++ [.start]) = some k) :
    MutexUsers.Initial discoveryBoard 0 ⟨k, fun _ => .outside⟩ where
  reachable := reachable_boot hk
  free := (contest_started hk).owner
  nobody := by
    obtain ⟨L, hi, -, hwait, -⟩ := (contest_started hk).lists
    rw [listIsEmpty_head hi.lists, hwait]
    rfl
  outside _ := rfl

omit board in
/-- Thread 1 takes the mutex, and thread 2 loses its first attempt. -/
theorem exists_round :
    ∃ s₀ s, s₀.Initial discoveryBoard 0 ∧ Reaches (mutexStep discoveryBoard 0) (Calm 0) s₀ s ∧
      Round s 0 16 1 2 (mutexRecursiveMax - 1) := by
  obtain ⟨k, hk⟩ := Option.isSome_iff_exists.mp
    (show (boot (threeThreads ++ [.start])).isSome = true by decide +kernel)
  obtain ⟨k₁, hrun₁, hk₁⟩ := Contest.lock discoveryBoard (s := ⟨k, fun _ => .outside⟩)
    (contest_started hk) rfl
  obtain ⟨k₂, hrun₂, hk₂⟩ := Contest.yield discoveryBoard
    (s := ⟨k₁, Function.update (fun _ => .outside) 1 .critical⟩) hk₁ (by simp)
  obtain ⟨k₃, hrun₃, hk₃⟩ := Contest.lockLost discoveryBoard
    (s := ⟨k₂, Function.update (fun _ => .outside) 1 .critical⟩) hk₂ (by simp) (by decide)
    (by simp)
  refine ⟨_, _, users_initial hk, hrun₃.trans (hrun₂.trans hrun₁), hk₃, by simp, by simp, ?_⟩
  intro t ht₁ ht₂
  simp [ht₁, ht₂]

omit board in
theorem thread1_excludes :
    ∃ s₀ s, s₀.Initial discoveryBoard 0 ∧ Reaches (mutexStep discoveryBoard 0) (Calm 0) s₀ s ∧
      s.pc 1 = .critical ∧ ∀ u, s.pc u = .critical → u = 1 := by
  obtain ⟨s₀, s, hinit, hrun, hr⟩ := exists_round
  have hexcl := mutex_excludes hinit (hrun.mono fun _ _ h => ⟨h.1.1, h.2⟩)
  exact ⟨s₀, s, hinit, hrun, hr.owner, fun u hu => hexcl.2 u 1 hu hr.owner⟩

omit board in
/-- The waiter loses all its attempts, gives up and enters the critical section
that thread 1 is in. -/
theorem mutex_worn_down_enters :
    ∃ s₀ s, s₀.Initial discoveryBoard 0 ∧ Reaches (mutexStep discoveryBoard 0) Bracketed s₀ s ∧
      s.pc 1 = .critical ∧ s.pc 2 = .critical ∧ s.kernel.ownThread 0 = some 1 := by
  obtain ⟨s₀, s₁, hinit, hfirst, hround⟩ := exists_round
  obtain ⟨s, hworn, hr⟩ := hround.wornDown discoveryBoard (by decide)
  obtain ⟨k₁, hrun₁, hk₁⟩ := hr.contest.unlock discoveryBoard (by simp) hr.owner
  obtain ⟨k₂, hrun₂, hk₂⟩ := Contest.lock discoveryBoard
    (s := ⟨k₁, Function.update s.pc 1 .outside⟩) hk₁ (by simp)
  obtain ⟨k₃, hrun₃, hk₃⟩ := Contest.yield discoveryBoard
    (s := ⟨k₂, Function.update (Function.update s.pc 1 .outside) 1 .critical⟩) hk₂ (by simp)
  let s₃ : MutexUsers := ⟨k₃, Function.update (Function.update s.pc 1 .outside) 1 .critical⟩
  have hgive : mutexStep discoveryBoard 0 s₃ .giveUp =
      some { s₃ with pc := Function.update s₃.pc 2 .critical } := by
    have hpc : s₃.pc 2 = .locking 0 := by simp [s₃, hr.waiter]
    simp [mutexStep, show s₃.kernel.currentThread = some 2 from hk₃.current, hpc]
  have hlast := (hrun₃.trans (hrun₂.trans hrun₁)).mono fun _ _ h => h.1
  have hall := (hlast.trans (hworn.trans (hfirst.mono fun _ _ h => h.1))).mono fun _ _ h => h.1
  refine ⟨s₀, _, hinit, .tail (i := .giveUp) hall trivial hgive, ?_, ?_, hk₃.owner⟩
  · simp [s₃]
  · simp

end PosixRtos.Kernel
