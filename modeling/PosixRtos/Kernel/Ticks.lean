import PosixRtos.Kernel.Writes

/-! One tick. `sched_proc` charges the current thread, counts every sleeping thread
down once, switches, and accounts for the processor. -/
namespace PosixRtos.Kernel

open PosixRtos.Library.Rings PosixRtos.Library.Runs IntrusiveList

/-- What `sched_proc_current_thread` makes of the thread. -/
def Thread.charge (thread : Thread) : Thread :=
  if thread.curTicks - 1 = 0 then { thread with curTicks := thread.curTicks - 1, status := .ready }
  else { thread with curTicks := thread.curTicks - 1 }

/-- What the loop over `thread_sleep_list` makes of a thread in it. -/
def Thread.nap (thread : Thread) : Thread :=
  if thread.sleepTicks - 1 = 0 then
    { thread with sleepTicks := thread.sleepTicks - 1, status := .ready }
  else { thread with sleepTicks := thread.sleepTicks - 1 }

/-- One turn of the loop. -/
def wakeOne (k : State) (t : Tid) : State :=
  let k := k.setThread t fun thread => { thread with sleepTicks := thread.sleepTicks - 1 }
  if (k.thread t).sleepTicks = 0 then schedSetThreadReady k t else k

variable {board : Board} {k k' k₁ : State} {L L' : Head → List Tid} {c t u : Tid}

theorem Thread.nap_curTicks (thread : Thread) : thread.nap.curTicks = thread.curTicks := by
  unfold Thread.nap
  split <;> rfl

theorem Thread.nap_initTicks (thread : Thread) : thread.nap.initTicks = thread.initTicks := by
  unfold Thread.nap
  split <;> rfl

theorem Thread.charge_initTicks (thread : Thread) :
    thread.charge.initTicks = thread.initTicks := by
  unfold Thread.charge
  split <;> rfl

theorem Thread.charge_curTicks (thread : Thread) :
    thread.charge.curTicks = thread.curTicks - 1 := by
  unfold Thread.charge
  split <;> rfl

/-! The loop over the sleeping threads. -/

theorem wakeOne_self (k : State) (t : Tid) : (wakeOne k t).thread t = (k.thread t).nap := by
  unfold wakeOne Thread.nap
  simp only [State.setThread_self]
  split
  · simp [schedSetThreadReady, State.setStatus]
  · simp

theorem wakeOne_of_ne (k : State) (hut : u ≠ t) : (wakeOne k t).thread u = k.thread u := by
  unfold wakeOne
  dsimp only
  split
  · rw [schedSetThreadReady, State.enqueueReady_thread, State.setStatus_of_ne _ hut,
      State.setThread_of_ne _ hut]
  · rw [State.setThread_of_ne _ hut]

theorem wakeOne_enqueued (k : State) (t : Tid) : (wakeOne k t).enqueued =
    if (k.thread t).sleepTicks - 1 = 0 then t :: k.enqueued else k.enqueued := by
  unfold wakeOne
  simp only [State.setThread_self]
  split <;> rfl

theorem foldlM_wakeupEntry (tids : List Tid) (k : State) :
    (tids.map (Cell.node : Tid → Node)).foldlM (fun s x => wakeupEntry x s) k =
      some (tids.foldl wakeOne k) := by
  induction tids generalizing k with
  | nil => rfl
  | cons t tids ih =>
    rw [List.map_cons, List.foldlM_cons, List.foldl_cons, ← ih]
    rfl

theorem schedWakeupSleepThread_eq (hi : Inv k L) :
    schedWakeupSleepThread k = some ((L .sleep).foldl wakeOne k) := by
  rw [schedWakeupSleepThread_fold hi, foldlM_wakeupEntry]

theorem foldl_wakeOne_thread {tids : List Tid} (hnodup : tids.Nodup) (k : State) (u : Tid) :
    (tids.foldl wakeOne k).thread u = if u ∈ tids then (k.thread u).nap else k.thread u := by
  induction tids generalizing k with
  | nil => simp
  | cons t tids ih =>
    obtain ⟨hnot, hnodup⟩ := List.nodup_cons.mp hnodup
    rw [List.foldl_cons, ih hnodup]
    by_cases hut : u = t
    · subst hut
      rw [if_neg hnot, if_pos (by simp), wakeOne_self]
    · rw [wakeOne_of_ne k hut]
      simp [hut]

theorem foldl_wakeOne_enqueued {tids : List Tid} (hnodup : tids.Nodup) (k : State) :
    (tids.foldl wakeOne k).enqueued =
      (tids.filter fun t => (k.thread t).sleepTicks - 1 = 0).reverse ++ k.enqueued := by
  induction tids generalizing k with
  | nil => rfl
  | cons t tids ih =>
    obtain ⟨hnot, hnodup⟩ := List.nodup_cons.mp hnodup
    have hothers : (tids.filter fun u => ((wakeOne k t).thread u).sleepTicks - 1 = 0) =
        tids.filter fun u => (k.thread u).sleepTicks - 1 = 0 := by
      refine List.filter_congr fun u hu => ?_
      have hut : u ≠ t := fun hut => hnot (hut ▸ hu)
      rw [wakeOne_of_ne k hut]
    rw [List.foldl_cons, ih hnodup, hothers, wakeOne_enqueued, List.filter_cons]
    split <;> simp_all

/-! The whole tick. -/

theorem Inv.mem_sleep_iff (hi : Inv k L) :
    t ∈ L .sleep ↔ t < k.count ∧ (k.thread t).status = .sleep := by
  constructor
  · exact fun hmem => ⟨hi.created hmem, hi.names_of_mem hmem⟩
  · rintro ⟨ht, hsleep⟩
    obtain ⟨h, hmem, hn⟩ := hi.placed t ht
    cases h with
    | sleep => exact hmem
    | _ => simp [Status.Names, hsleep] at hn

/-- A tick that finds the scheduler locked. -/
theorem schedProc_locked (hlocked : k.locked = schedIsLocked)
    (hs : schedProc board k = some k') : k' = k := by
  rw [schedProc, if_pos hlocked] at hs
  exact (Option.some.inj hs).symm

theorem schedProcCurrentThread_eq (hcur : k.currentThread = some c)
    (hs : schedProcCurrentThread k = some k₁) :
    k₁.thread c = (k.thread c).charge ∧ (∀ u, u ≠ c → k₁.thread u = k.thread u) ∧
      k₁.count = k.count ∧ k₁.enqueued =
        if (k.thread c).curTicks - 1 = 0 then c :: k.enqueued else k.enqueued := by
  simp only [schedProcCurrentThread, hcur, Option.bind_eq_bind, Option.bind_some,
    Option.some.injEq] at hs
  subst hs
  unfold Thread.charge
  simp only [State.setThread_self]
  split
  · refine ⟨by simp [schedSetThreadReady, State.setStatus], fun u hu => ?_, rfl, rfl⟩
    rw [schedSetThreadReady, State.enqueueReady_thread, State.setStatus_of_ne _ hu,
      State.setThread_of_ne _ hu]
  · exact ⟨by simp, fun u hu => State.setThread_of_ne _ hu _, rfl, rfl⟩

/-- What an unlocked tick makes of the threads and of the history of the ready
lists. -/
structure Ticked (k : State) (c : Tid) (k' : State) : Prop where
  current : k'.thread c = (k.thread c).charge
  sleeper : ∀ u < k.count, (k.thread u).status = .sleep → k'.thread u = (k.thread u).nap
  other : ∀ u, u ≠ c → (u < k.count → (k.thread u).status ≠ .sleep) → k'.thread u = k.thread u
  count : k'.count = k.count
  log : ∃ woken, (∀ u, u ∈ woken ↔
      u < k.count ∧ (k.thread u).status = .sleep ∧ (k.thread u).sleepTicks - 1 = 0) ∧
    k'.enqueued = woken ++
      if (k.thread c).curTicks - 1 = 0 then c :: k.enqueued else k.enqueued

theorem schedProc_ticked (hi : Inv k L) (hc : k.CurrentRunnable)
    (hunlocked : k.locked ≠ schedIsLocked) (hs : schedProc board k = some k') :
    ∃ c, k.currentThread = some c ∧ Ticked k c k' := by
  rcases schedProc_cases hs with ⟨hlocked, -⟩ | ⟨-, k₁, k₂, k₃, h₁, h₂, h₃, husage⟩
  · exact absurd hlocked hunlocked
  obtain ⟨c, L₁, hcur, hev₁, -, -, -⟩ := schedProcCurrentThread_spec hi hc h₁
  obtain ⟨hself, hothers, hcount, hlog⟩ := schedProcCurrentThread_eq hcur h₁
  have hrun := (hc c hcur).2
  have hawake : (k.thread c).status ≠ .sleep := by
    rcases hrun with hrun | hrun <;> simp [hrun]
  have hawake₁ : (k₁.thread c).status ≠ .sleep := by
    rw [hself]
    unfold Thread.charge
    split
    · simp
    · exact hawake
  have hsleep : ∀ u, u ∈ L₁ .sleep ↔ u < k.count ∧ (k.thread u).status = .sleep := by
    intro u
    rw [hev₁.inv.mem_sleep_iff, hcount]
    by_cases huc : u = c
    · subst huc
      simp [hawake, hawake₁]
    · rw [hothers u huc]
  rw [schedWakeupSleepThread_eq hev₁.inv] at h₂
  cases h₂
  have hk' : k'.thread = ((L₁ .sleep).foldl wakeOne k₁).thread ∧ k'.count = k₁.count ∧
      k'.enqueued = ((L₁ .sleep).foldl wakeOne k₁).enqueued := by
    obtain ⟨toThread, -, h₃⟩ := Option.bind_eq_some_iff.mp h₃
    obtain ⟨fromThread, -, h₃⟩ := Option.bind_eq_some_iff.mp h₃
    have hcount' : ((L₁ .sleep).foldl wakeOne k₁).count = k₁.count := by
      obtain ⟨k₂', L₂, hcall, hev₂, -⟩ := schedWakeupSleepThread_spec hev₁.inv
      rw [schedWakeupSleepThread_eq hev₁.inv] at hcall
      cases hcall
      exact hev₂.count
    rw [schedProcCpuUsage_spec husage]
    split at h₃ <;> cases h₃ <;> exact ⟨rfl, hcount', rfl⟩
  obtain ⟨hthread, hcount₃, henqueued⟩ := hk'
  have hnodup := hev₁.inv.lists.nodup .sleep
  have hvalue : ∀ u, k'.thread u = if u ∈ L₁ .sleep then (k₁.thread u).nap else k₁.thread u := by
    intro u
    rw [hthread, foldl_wakeOne_thread hnodup]
  refine ⟨c, hcur, ?_, ?_, ?_, hcount₃.trans hcount, ?_⟩
  · rw [hvalue, if_neg fun hmem => hawake ((hsleep c).mp hmem).2, hself]
  · intro u hu hasleep
    have huc : u ≠ c := by
      rintro rfl
      exact hawake hasleep
    rw [hvalue, if_pos ((hsleep u).mpr ⟨hu, hasleep⟩), hothers u huc]
  · intro u huc hnot
    rw [hvalue, if_neg fun hmem => hnot ((hsleep u).mp hmem).1 ((hsleep u).mp hmem).2,
      hothers u huc]
  · refine ⟨((L₁ .sleep).filter fun u => (k₁.thread u).sleepTicks - 1 = 0).reverse, ?_, ?_⟩
    · intro u
      rw [List.mem_reverse, List.mem_filter, hsleep, decide_eq_true_iff, and_assoc]
      refine and_congr_right fun _ => and_congr_right fun hasleep => ?_
      have huc : u ≠ c := by
        rintro rfl
        exact hawake hasleep
      rw [hothers u huc]
    · rw [henqueued, foldl_wakeOne_enqueued hnodup, hlog]

/-- A tick is defined whenever a thread runs. -/
theorem schedProc_isSome (board : Board) (hi : Inv k L) (hc : k.CurrentRunnable)
    (hcur : k.currentThread = some c) :
    ∃ k' v, schedProc board k = some k' ∧ k'.currentThread = some v := by
  unfold schedProc
  split
  · exact ⟨k, c, rfl, hcur⟩
  obtain ⟨k₁, h₁⟩ : ∃ k₁, schedProcCurrentThread k = some k₁ := by
    simp only [schedProcCurrentThread, hcur, Option.bind_eq_bind, Option.bind_some]
    exact ⟨_, rfl⟩
  obtain ⟨c', L₁, hcur', hev₁, -, hsame, -⟩ := schedProcCurrentThread_spec hi hc h₁
  obtain ⟨k₂, L₂, h₂, hev₂, hquiet⟩ := schedWakeupSleepThread_spec hev₁.inv
  have hcur₂ : k₂.currentThread = some c := by rw [hquiet.current, hsame, hcur]
  have hready : L₂ (.ready (k₂.thread c).curPrio) ≠ [] := by
    have hev := hev₁.trans hev₂
    have hrun : k₂.Runnable c := hev.runnable c (hc c hcur).2
    have hcount : c < k₂.count := by
      rw [hev.count]
      exact (hc c hcur).1
    exact List.ne_nil_of_mem ((hev₂.inv.runnable_iff hcount).mp hrun)
  obtain ⟨k₃, h₃⟩ := schedSwitchThread_isSome hev₂.inv hcur₂ hready
  obtain ⟨v, -, hk₃⟩ := schedSwitchThread_spec hev₂.inv h₃
  obtain ⟨k', h₄⟩ : ∃ k', schedProcCpuUsage board k₃ = some k' := by
    have hcur₃ : k₃.currentThread = some v := by rw [hk₃]
    simp only [schedProcCpuUsage, hcur₃, Option.bind_eq_bind, Option.bind_some]
    generalize (if (k₃.thread v).type ≠ .idle then _ else _ : Usage) = usage
    split
    · exact ⟨_, rfl⟩
    · exact ⟨_, rfl⟩
  refine ⟨k', v, ?_, ?_⟩
  · simp only [h₁, h₂, h₃, Option.bind_eq_bind, Option.bind_some]
    exact h₄
  · rw [schedProcCpuUsage_spec h₄, hk₃]

end PosixRtos.Kernel
