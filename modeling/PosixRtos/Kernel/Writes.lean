import Mathlib.Logic.Relation
import PosixRtos.Kernel.Handler

/-! What the sections of the kernel write into the threads that exist. Between two
ticks the counters of a thread are written by its own `msleep` and by nobody else,
only `__sched_report_signal` writes the status `INT`, and the accounting of the
processor time stands still. -/
namespace PosixRtos.Kernel

open PosixRtos.Library.Rings PosixRtos.Library.Runs IntrusiveList

/-- The writes to the thread `t` during the section `op` that starts in `k₀`. -/
inductive Write (k₀ : State) (op : Op) (t : Tid) : (Thread → Thread) → Prop where
  | status (status : Status) (hint : status = .int → op = .reportSignal t) :
      Write k₀ op t fun thread => { thread with status := status }
  | sp (value : BitVec 32) : Write k₀ op t fun thread => { thread with sp := value }
  | intSp (value : Thread → BitVec 32) :
      Write k₀ op t fun thread => { thread with intSp := value thread }
  | curTicks (value : Thread → BitVec 8) (hop : op = .tick) (hcur : k₀.currentThread = some t) :
      Write k₀ op t fun thread => { thread with curTicks := value thread }
  | sleepTicks (value : Thread → BitVec 16)
      (hop : op = .tick ∨ ∃ ms, op = .msleep ms ∧ k₀.currentThread = some t) :
      Write k₀ op t fun thread => { thread with sleepTicks := value thread }

/-- What the sections leave alone beside the threads. -/
structure Rest (op : Op) (k k' : State) : Prop where
  usage : k'.usage = k.usage ∨ op = .tick
  locked : k'.locked = k.locked ∨ op = .schedSuspend ∨ ∃ state, op = .schedRecover state

/-- One write to one thread, a new thread, or a change outside of the threads. -/
inductive Edit (k₀ : State) (op : Op) (k k' : State) : Prop where
  | outside (hthread : k'.thread = k.thread) (hcount : k'.count = k.count)
      (hrest : Rest op k k')
  | write {t : Tid} {f : Thread → Thread} (hwrite : Write k₀ op t f)
      (hthread : k'.thread = (k.setThread t f).thread) (hcount : k'.count = k.count)
      (hrest : Rest op k k')
  | created {thread : Thread} (hticks : thread.curTicks = thread.initTicks)
      (hslice : thread.initTicks ≠ 0) (hint : thread.status ≠ .int)
      (hthread : k'.thread = Function.update k.thread k.count thread)
      (hcount : k'.count = k.count + 1) (hrest : Rest op k k')

abbrev Edits (k₀ : State) (op : Op) : State → State → Prop := Relation.ReflTransGen (Edit k₀ op)

variable {board : Board} {k k' k'' k₀ : State} {t u : Tid} {op : Op}

theorem Rest.same (husage : k'.usage = k.usage) (hlocked : k'.locked = k.locked) :
    Rest op k k' := ⟨.inl husage, .inl hlocked⟩

theorem schedSwitchThread_thread (hs : schedSwitchThread k = some k') :
    k'.thread = k.thread ∧ k'.count = k.count ∧ Rest op k k' := by
  obtain ⟨toThread, -, hs⟩ := Option.bind_eq_some_iff.mp hs
  obtain ⟨fromThread, -, hs⟩ := Option.bind_eq_some_iff.mp hs
  split at hs <;> cases hs <;> exact ⟨rfl, rfl, .same rfl rfl⟩

theorem Edits.switch (hkk : Edits k₀ op k k') (hs : schedSwitchThread k' = some k'') :
    Edits k₀ op k k'' := by
  obtain ⟨hthread, hcount, hrest⟩ := schedSwitchThread_thread hs
  exact hkk.tail (.outside hthread hcount hrest)

/-- A status other than `INT`, and changes outside of the threads with it. -/
theorem edits_status (status : Status) (hstatus : status ≠ .int)
    (hthread : k'.thread = (k.setStatus t status).thread) (hcount : k'.count = k.count)
    (hrest : Rest op k k') : Edits k₀ op k k' :=
  .single (.write (.status status fun hint => absurd hint hstatus) hthread hcount hrest)

theorem edits_setReady (k : State) (t : Tid) : Edits k₀ op k (schedSetThreadReady k t) :=
  edits_status (t := t) .ready (by decide) rfl rfl (.same rfl rfl)

theorem edits_suspendOn {h : Head} (hs : k.suspendOn t h = some k') : Edits k₀ op k k' := by
  have hsuspend : Edits k₀ op k ((schedSetThreadSuspend k t).insertTail h t) :=
    edits_status (t := t) .suspend (by decide) rfl rfl (.same rfl rfl)
  exact hsuspend.switch hs

theorem edits_wakeFirst {h : Head} (hs : k.wakeFirst h = some k') : Edits k₀ op k k' := by
  unfold State.wakeFirst at hs
  split at hs
  · cases hs
    exact .refl
  · exact (edits_setReady _ _).switch hs

theorem rawPthreadAttrCheck_ticks {attr : Option PthreadAttr}
    (hcheck : rawPthreadAttrCheck attr = true) : (attr.getD defaultAttr).initTicks ≠ 0 := by
  cases attr with
  | none => decide
  | some attr =>
    unfold rawPthreadAttrCheck at hcheck
    dsimp only at hcheck
    split at hcheck
    · cases hcheck
    split at hcheck
    · cases hcheck
    split at hcheck
    · cases hcheck
    split at hcheck
    · cases hcheck
    · assumption

theorem edits_pthreadCreate (k : State) (attr : Option PthreadAttr) (memory : CreateMemory) :
    Edits k₀ op k (pthreadCreate k attr memory).1 := by
  unfold pthreadCreate
  split
  · exact .refl
  next hcheck =>
  cases hcreate : rawPthreadCreate k attr memory with
  | none => exact .refl
  | some created =>
    obtain ⟨k₁, u⟩ := created
    simp only [rawPthreadCreate] at hcreate
    split at hcreate
    · cases hcreate
    obtain ⟨type, -, hcreate⟩ := Option.bind_eq_some_iff.mp hcreate
    obtain ⟨prio, -, hcreate⟩ := Option.bind_eq_some_iff.mp hcreate
    obtain ⟨hk, -⟩ := Prod.mk.inj (Option.some.inj hcreate)
    have hattr : rawPthreadAttrCheck attr = true := by simpa using hcheck
    have hslice := rawPthreadAttrCheck_ticks hattr
    have hcreated : Edit k₀ op k k₁ := by
      rw [← hk]
      exact @Edit.created _ _ _ _ (initThread (attr.getD defaultAttr) type prio
        (createStack (attr.getD defaultAttr) memory)) rfl hslice (by simp [initThread]) rfl rfl
        (.same rfl rfl)
    refine (Relation.ReflTransGen.single hcreated).trans ?_
    exact edits_status (t := u) .ready (by decide) rfl rfl (.same rfl rfl)

theorem edits_storeSlot (k : State) (slot : Slot) (value : BitVec 32) :
    Edits k₀ op k (k.storeSlot slot value) := by
  cases slot with
  | sp t => exact .single (.write (.sp value) rfl rfl (.same rfl rfl))
  | intSp t => exact .single (.write (.intSp fun _ => value) rfl rfl (.same rfl rfl))

/-- A loop whose body keeps a preorder keeps it. -/
theorem forEachEntrySafe_rel {links : State → Links Node} {list : Node}
    {body : Node → State → Option State} {R : State → State → Prop} (hrefl : ∀ k, R k k)
    (htrans : ∀ {k k' k''}, R k k' → R k' k'' → R k k'')
    (hbody : ∀ x k k', body x k = some k' → R k k') (fuel : Nat) (pos n : Node) (k k' : State)
    (hs : forEachEntrySafe links list body fuel pos n k = some k') : R k k' := by
  induction fuel generalizing pos n k with
  | zero => cases hs
  | succ fuel ih =>
    rw [forEachEntrySafe] at hs
    split at hs
    · cases hs
      exact hrefl _
    · obtain ⟨k₁, hfirst, hs⟩ := Option.bind_eq_some_iff.mp hs
      exact htrans (hbody _ _ _ hfirst) (ih _ _ _ hs)

theorem edits_wakeup (hs : schedWakeupSleepThread k = some k') : Edits k₀ .tick k k' := by
  refine forEachEntrySafe_rel (fun _ => .refl) (fun hkk hkk' => hkk.trans hkk') ?_ _ _ _ k k' hs
  intro pos k k' hs
  cases pos with
  | head h => cases hs
  | node t =>
    cases hs
    have hticks : Edits k₀ .tick k (k.setThread t fun thread =>
        { thread with sleepTicks := thread.sleepTicks - 1 }) :=
      .single (.write (.sleepTicks (fun thread => thread.sleepTicks - 1) (.inl rfl)) rfl rfl
        (.same rfl rfl))
    split
    · exact hticks.trans (edits_setReady _ _)
    · exact hticks

theorem edits_procCurrent (hs : schedProcCurrentThread k = some k') : Edits k .tick k k' := by
  obtain ⟨thread, hcur, hs⟩ := Option.bind_eq_some_iff.mp hs
  cases hs
  have hticks : Edits k .tick k (k.setThread thread fun t =>
      { t with curTicks := t.curTicks - 1 }) :=
    .single (.write (.curTicks (fun t => t.curTicks - 1) rfl hcur) rfl rfl (.same rfl rfl))
  split
  · exact hticks.trans (edits_setReady _ _)
  · exact hticks

theorem edits_schedProc (hs : schedProc board k = some k') : Edits k .tick k k' := by
  rcases schedProc_cases hs with ⟨-, rfl⟩ | ⟨-, k₁, k₂, k₃, hcurrent, hwakeup, hswitch, hs⟩
  · exact .refl
  have husage : Edit k .tick k₃ k' := by
    rw [schedProcCpuUsage_spec hs]
    exact .outside rfl rfl ⟨.inr rfl, .inl rfl⟩
  have hready : Edits k .tick k k₂ := (edits_procCurrent hcurrent).trans (edits_wakeup hwakeup)
  exact (hready.switch hswitch).tail husage

theorem step_edits (hs : step board k op = some k') : Edits k op k k' := by
  cases op with
  | start =>
    rw [step] at hs
    split at hs
    · obtain ⟨thread, -, hs⟩ := Option.bind_eq_some_iff.mp hs
      cases hs
      exact .single (.outside rfl rfl (.same rfl rfl))
    · cases hs
  | create attr memory =>
    cases hs
    exact edits_pthreadCreate k attr memory
  | yieldRequeue =>
    obtain ⟨thread, -, hs⟩ := Option.bind_eq_some_iff.mp hs
    cases hs
    exact edits_setReady k thread
  | switchThread => exact Edits.switch .refl hs
  | tick => exact edits_schedProc hs
  | msleep ms =>
    obtain ⟨⟨k₁, r⟩, hcall, rfl⟩ := Option.map_eq_some_iff.mp hs
    unfold msleep at hcall
    split at hcall
    · cases hcall
      exact .refl
    · next thread hcur =>
      obtain ⟨k₂, hswitch, hcall⟩ := Option.bind_eq_some_iff.mp hcall
      cases hcall
      let ticks := ms.toNat / board.tickPeriod
      have hticks : Edits k (.msleep ms) k (k.setThread thread fun t =>
          { t with sleepTicks := BitVec.ofNat 16 (if ticks ≠ 0 then ticks else 1) }) :=
        .single (.write (.sleepTicks (fun _ => _) (.inr ⟨ms, rfl, hcur⟩)) rfl rfl (.same rfl rfl))
      refine Edits.switch (hticks.trans ?_) hswitch
      exact edits_status (t := thread) .sleep (by decide) rfl rfl (.same rfl rfl)
  | mutexLock mutex =>
    obtain ⟨⟨k₁, r⟩, hcall, rfl⟩ := Option.map_eq_some_iff.mp hs
    rcases rawPthreadMutexLock_cases hcall with ⟨-, rfl, -⟩ | ⟨c, -, hcase⟩
    · exact .refl
    rcases hcase with ⟨-, -, rfl⟩ | ⟨-, -, rfl⟩ | ⟨owner, -, -, -, hsuspend⟩
    · exact .single (.outside rfl rfl (.same rfl rfl))
    · exact .refl
    · exact edits_suspendOn hsuspend
  | mutexUnlock mutex =>
    obtain ⟨⟨k₁, r⟩, hcall, rfl⟩ := Option.map_eq_some_iff.mp hs
    rcases pthreadMutexUnlock_cases hcall with ⟨-, rfl, -⟩ | ⟨c, -, hcase⟩
    · exact .refl
    rcases hcase with ⟨-, -, hwake⟩ | ⟨-, -, rfl⟩
    · have hfreed : Edits k (.mutexUnlock mutex) k
          { k with ownThread := Function.update k.ownThread mutex none } :=
        .single (.outside rfl rfl (.same rfl rfl))
      exact hfreed.trans (edits_wakeFirst hwake)
    · exact .refl
  | semWait sem =>
    obtain ⟨⟨k₁, r⟩, hcall, rfl⟩ := Option.map_eq_some_iff.mp hs
    rcases rawSemWait_cases hcall with ⟨-, -, rfl⟩ | ⟨-, -, c, -, hsuspend⟩
    · exact .single (.outside rfl rfl (.same rfl rfl))
    · exact edits_suspendOn hsuspend
  | semPost sem =>
    obtain ⟨⟨k₁, r⟩, hcall, rfl⟩ := Option.map_eq_some_iff.mp hs
    rcases semPost_cases hcall with ⟨-, -, rfl⟩ | ⟨-, -, hwake⟩
    · exact .refl
    have hcounted : Edits k (.semPost sem) k (k.incremented sem) := by
      unfold State.incremented
      split
      · exact .single (.outside rfl rfl (.same rfl rfl))
      · exact .refl
    exact hcounted.trans (edits_wakeFirst hwake)
  | reportSignal thread =>
    rw [step] at hs
    split at hs
    · obtain ⟨⟨k₁, r⟩, hcall, rfl⟩ := Option.map_eq_some_iff.mp hs
      unfold rawSchedReportSignal at hcall
      split at hcall
      · cases hcall
        exact .refl
      · obtain ⟨k₂, hswitch, hcall⟩ := Option.bind_eq_some_iff.mp hcall
        cases hcall
        have hframe : Edits k (.reportSignal thread) k (rawPthreadIntInit k thread) :=
          .single (.write (.intSp fun x => pthreadHwStackInit (x.sp - 8)) rfl rfl (.same rfl rfl))
        refine Edits.switch (hframe.tail ?_) hswitch
        exact .write (t := thread) (.status .int fun _ => rfl) rfl rfl (.same rfl rfl)
    · cases hs
  | intExit =>
    obtain ⟨thread, -, hs⟩ := Option.bind_eq_some_iff.mp hs
    cases hs
    exact edits_status (t := thread) .ready (by decide) rfl rfl (.same rfl rfl)
  | exit =>
    obtain ⟨thread, -, hs⟩ := Option.bind_eq_some_iff.mp hs
    refine Edits.switch ?_ hs
    exact edits_status (t := thread) .closed (by decide) rfl rfl (.same rfl rfl)
  | schedSuspend =>
    cases hs
    exact .single (.outside rfl rfl ⟨.inl rfl, .inr (.inl rfl)⟩)
  | schedRecover state =>
    cases hs
    exact .single (.outside rfl rfl ⟨.inl rfl, .inr (.inr ⟨state, rfl⟩)⟩)
  | pendSV =>
    rcases pendSVHandler_spec hs with ⟨-, rfl⟩ | ⟨-, slot, -, rfl⟩
    · exact .refl
    · have hsaved : Edits k .pendSV k k.saveLive := by
        unfold State.saveLive
        split
        · exact .refl
        · exact edits_storeSlot k _ _
      exact hsaved.trans (.single (.outside rfl rfl
        (.same (by rw [saveLive_eq]) (by rw [saveLive_eq]))))
  | run psp =>
    cases hs
    exact .single (.outside rfl rfl (.same rfl rfl))

/-! What follows for one thread. -/

theorem Edit.rest (hedit : Edit k₀ op k k') : Rest op k k' := by
  cases hedit with
  | outside _ _ hrest => exact hrest
  | write _ _ _ hrest => exact hrest
  | created _ _ _ _ _ hrest => exact hrest

theorem Edits.rest (hkk : Edits k₀ op k k') : Rest op k k' := by
  induction hkk with
  | refl => exact .same rfl rfl
  | tail _ hedit ih =>
    obtain ⟨husage, hlocked⟩ := hedit.rest
    refine ⟨?_, ?_⟩
    · rcases husage with husage | htick
      · rw [husage]
        exact ih.usage
      · exact .inr htick
    · rcases hlocked with hlocked | hop
      · rw [hlocked]
        exact ih.locked
      · exact .inr hop

theorem Edits.count_le (hkk : Edits k₀ op k k') : k.count ≤ k'.count := by
  induction hkk with
  | refl => exact le_rfl
  | tail _ hedit ih =>
    cases hedit with
    | outside _ hcount => omega
    | write _ _ hcount => omega
    | created _ _ _ _ hcount => omega

/-- A field that none of the writes to `t` is about. -/
theorem Edits.field (hkk : Edits k₀ op k k') (field : Thread → β)
    (hfield : ∀ f, Write k₀ op t f → ∀ x, field (f x) = field x) (ht : t < k.count) :
    field (k'.thread t) = field (k.thread t) := by
  induction hkk with
  | refl => rfl
  | @tail k₁ k₂ hrun hedit ih =>
    have hcount := Edits.count_le hrun
    rw [← ih]
    cases hedit with
    | outside hthread => rw [hthread]
    | @write u f hwrite hthread =>
      rw [hthread]
      by_cases htu : t = u
      · subst htu
        rw [State.setThread_self, hfield f hwrite]
      · rw [State.setThread_of_ne _ htu]
    | created _ _ _ hthread =>
      rw [hthread, Function.update_of_ne (ht.trans_le hcount).ne]

/-- A thread that was not there before starts with a full slice. -/
theorem Edits.fresh (hkk : Edits k₀ op k k') (hop : op ≠ .tick) (ht : k.count ≤ t)
    (ht' : t < k'.count) :
    (k'.thread t).curTicks = (k'.thread t).initTicks ∧ (k'.thread t).initTicks ≠ 0 := by
  induction hkk with
  | refl => exact absurd ht' (not_lt.mpr ht)
  | @tail k₁ k₂ hrun hedit ih =>
    cases hedit with
    | outside hthread hcount =>
      rw [hthread]
      exact ih (hcount ▸ ht')
    | @write u f hwrite hthread hcount =>
      have hold := ih (hcount ▸ ht')
      rw [hthread]
      by_cases htu : t = u
      · subst htu
        rw [State.setThread_self]
        cases hwrite with
        | curTicks _ htick => exact absurd htick hop
        | _ => exact hold
      · rwa [State.setThread_of_ne _ htu]
    | created hticks hslice _ hthread hcount =>
      rw [hthread]
      by_cases htc : t = k₁.count
      · rw [htc, Function.update_self]
        exact ⟨hticks, hslice⟩
      · rw [Function.update_of_ne htc]
        rw [hcount] at ht'
        exact ih (lt_of_le_of_ne (Nat.lt_succ_iff.mp ht') htc)

/-- Only a report puts a thread into its handler, and only the thread it is for. -/
theorem Edits.new_int (hkk : Edits k₀ op k k') (ht : t < k'.count)
    (hint : (k'.thread t).status = .int) :
    op = .reportSignal t ∨ (t < k.count ∧ (k.thread t).status = .int) := by
  induction hkk with
  | refl => exact .inr ⟨ht, hint⟩
  | @tail k₁ k₂ hrun hedit ih =>
    cases hedit with
    | outside hthread hcount =>
      rw [hthread] at hint
      exact ih (hcount ▸ ht) hint
    | @write u f hwrite hthread hcount =>
      rw [hthread] at hint
      by_cases htu : t = u
      · subst htu
        rw [State.setThread_self] at hint
        cases hwrite with
        | status status hsignal => exact .inl (hsignal hint)
        | _ => exact ih (hcount ▸ ht) hint
      · rw [State.setThread_of_ne _ htu] at hint
        exact ih (hcount ▸ ht) hint
    | created _ _ hstatus hthread hcount =>
      rw [hthread] at hint
      by_cases htc : t = k₁.count
      · rw [htc, Function.update_self] at hint
        exact absurd hint hstatus
      · rw [Function.update_of_ne htc] at hint
        rw [hcount] at ht
        exact ih (lt_of_le_of_ne (Nat.lt_succ_iff.mp ht) htc) hint

theorem step_new_int (hs : step board k op = some k') (hlt : t < k'.count)
    (hint : (k'.thread t).status = .int) :
    op = .reportSignal t ∨ (t < k.count ∧ (k.thread t).status = .int) :=
  (step_edits hs).new_int hlt hint

end PosixRtos.Kernel
