import PosixRtos.Kernel.Schedule

/-! The deferred context switch. `sched.current_thread` runs ahead of the
processor: requests only write three words, and `PendSV_Handler` acts on them
later. -/
namespace PosixRtos.Kernel

open PosixRtos.Library.Rings PosixRtos.Library.Runs IntrusiveList

variable {board : Board} {k k' : State} {L : Head → List Tid} {t u : Tid} {op : Op}

/-- A run whose steps meet `ok`, from the moment `sched_start` is called in the
start-up context. -/
def StartedRun (board : Board) (ok : State → Op → Prop) (k : State) : Prop :=
  ∃ k₀ k₁, Reachable board k₀ ∧ k₀.currentThread = none ∧ k₀.cpu.live = none ∧
    schedStart k₀ = some k₁ ∧ Reaches (step board) ok k₁ k

theorem StartedRun.reachable {ok : State → Op → Prop} (hr : StartedRun board ok k) :
    Reachable board k := by
  obtain ⟨k₀, k₁, ⟨blank, hblank, hboot⟩, hnone, -, hstart, hrun⟩ := hr
  have hfirst : Reaches (step board) anyStep (schedInit board blank) k₁ := by
    refine .tail (i := .start) hboot trivial ?_
    rw [step, if_pos hnone, hstart]
  exact ⟨blank, hblank, hrun.any.trans hfirst⟩

/-- The state after a start in the start-up context and a list of inputs. -/
def startBoot (before : List Op) (ok : State → Op → Prop) [∀ k op, Decidable (ok k op)]
    (inputs : List Op) : Option State := do
  let k₀ ← boot before
  if k₀.currentThread = none ∧ k₀.cpu.live = none then
    let k₁ ← schedStart k₀
    runInputs (step discoveryBoard) ok inputs k₁
  else none

theorem startedRun_startBoot {before inputs : List Op} {ok : State → Op → Prop}
    [∀ k op, Decidable (ok k op)] (hs : startBoot before ok inputs = some k) :
    StartedRun discoveryBoard ok k := by
  obtain ⟨k₀, hboot, hs⟩ := Option.bind_eq_some_iff.mp hs
  split at hs
  · next hcold =>
    obtain ⟨k₁, hstart, hs⟩ := Option.bind_eq_some_iff.mp hs
    exact ⟨k₀, k₁, reachable_boot hboot, hcold.1, hcold.2, hstart, .of_runInputs hs⟩
  · cases hs

theorem contextSlot_thread (k : State) (t : Tid) : (k.contextSlot t).thread = t := by
  unfold State.contextSlot
  split <;> rfl

theorem contextSlot_of_not_int (h : (k.thread t).status ≠ .int) : k.contextSlot t = .sp t :=
  if_neg h

theorem contextSlot_of_int (h : (k.thread t).status = .int) : k.contextSlot t = .intSp t :=
  if_pos h

/-- `PendSV_Handler` stores into one slot only. -/
theorem saveLive_sp (hslot : k.cpu.interruptFromThread ≠ some (.sp u)) :
    (k.saveLive.thread u).sp = (k.thread u).sp := by
  unfold State.saveLive
  split
  · rfl
  next slot hfrom =>
  cases slot with
  | sp a =>
    have hua : u ≠ a := by
      rintro rfl
      exact hslot hfrom
    simp [State.storeSlot, State.setThread_of_ne k hua]
  | intSp a =>
    let save : Thread → Thread := fun x => { x with intSp := k.cpu.psp - savedRegisterBytes }
    exact k.setThread_field a save Thread.sp (fun _ => rfl) u

theorem saveLive_saved (hslot : k.cpu.interruptFromThread = some (.sp u)) :
    (k.saveLive.thread u).sp = k.cpu.psp - savedRegisterBytes := by
  simp [State.saveLive, hslot, State.storeSlot]

/-- Nothing but `PendSV_Handler` stores into a saved stack pointer. -/
theorem step_sp (hi : Inv k L) (hc : k.CurrentRunnable) (hop : op ≠ .pendSV)
    (hs : step board k op = some k') (hu : u < k.count) : (k'.thread u).sp = (k.thread u).sp := by
  by_cases hsection : op.IsSection
  · obtain ⟨L', hlaw⟩ := step_lawful hsection hi hc hs
    exact hlaw.sp u hu
  cases op with
  | start =>
    rw [step] at hs
    split at hs
    · obtain ⟨t, -, rfl⟩ := schedStart_spec hi hs
      rfl
    · cases hs
  | intExit =>
    obtain ⟨t, -, hs⟩ := Option.bind_eq_some_iff.mp hs
    cases hs
    exact k.setStatus_sp t .ready u
  | pendSV => exact absurd rfl hop
  | run psp =>
    cases hs
    rfl
  | _ => exact absurd trivial hsection

/-! Coalescing, while no thread is in a handler. -/

def NoHandler (k : State) : Prop := ∀ t < k.count, (k.thread t).status ≠ .int

instance (k : State) : Decidable (NoHandler k) := inferInstanceAs (Decidable (∀ _ < _, _))

/-- No thread is in a handler before the step, and so none returns from one. -/
def Ordinary (k : State) (op : Op) : Prop := NoHandler k ∧ op ≠ .intExit

instance (k : State) (op : Op) : Decidable (Ordinary k op) := inferInstanceAs (Decidable (_ ∧ _))

structure Coalesced (k : State) : Prop where
  started : k.currentThread ≠ none
  settled : k.cpu.threadSwitchInterruptFlag = false → k.cpu.live = k.currentThread.map .sp
  saves : k.cpu.threadSwitchInterruptFlag = true → k.cpu.interruptFromThread = k.cpu.live
  resumes : k.cpu.threadSwitchInterruptFlag = true →
    k.cpu.interruptToThread = k.currentThread.map .sp
  normal : ∀ slot, k.cpu.live = some slot → slot = .sp slot.thread

theorem hwContextSwitch_live (cpu : Cpu) (a b : Slot) :
    (hwContextSwitch cpu a b).live = cpu.live := by
  unfold hwContextSwitch
  split <;> rfl

theorem hwContextSwitch_flag (cpu : Cpu) (a b : Slot) :
    (hwContextSwitch cpu a b).threadSwitchInterruptFlag = true := by
  unfold hwContextSwitch
  split
  · assumption
  · rfl

theorem hwContextSwitch_to (cpu : Cpu) (a b : Slot) :
    (hwContextSwitch cpu a b).interruptToThread = some b := by
  unfold hwContextSwitch
  split <;> rfl

theorem hwContextSwitch_from (cpu : Cpu) (a b : Slot) :
    (hwContextSwitch cpu a b).interruptFromThread =
      if cpu.threadSwitchInterruptFlag then cpu.interruptFromThread else some a := by
  unfold hwContextSwitch
  split <;> rfl

/-- A request keeps the first `from` and the last `to`. -/
theorem Coalesced.switch (hk : Coalesced k) (hsw : CpuSwitch k k') (hc' : k'.CurrentRunnable)
    (hcurrent : ∀ a, k.currentThread = some a → a < k'.count) (hquiet : NoHandler k') :
    Coalesced k' := by
  rcases hsw with ⟨hcpu, hcur⟩ | ⟨a, b, ha, hb, hcpu⟩
  · exact ⟨hcur ▸ hk.started, by rw [hcpu, hcur]; exact hk.settled, by rw [hcpu]; exact hk.saves,
      by rw [hcpu, hcur]; exact hk.resumes, by rw [hcpu]; exact hk.normal⟩
  rw [contextSlot_of_not_int (hquiet a (hcurrent a ha)),
    contextSlot_of_not_int (hquiet b (hc' b hb).1)] at hcpu
  refine ⟨by simp [hb], ?_, ?_, ?_, ?_⟩
  · simp [hcpu, hwContextSwitch_flag]
  · intro _
    rw [hcpu, hwContextSwitch_live, hwContextSwitch_from]
    split
    · next hflag => exact hk.saves hflag
    · next hflag => rw [hk.settled (by simpa using hflag), ha, Option.map_some]
  · intro _
    rw [hcpu, hwContextSwitch_to, hb, Option.map_some]
  · rw [hcpu, hwContextSwitch_live]
    exact hk.normal

theorem Coalesced.pendSV (hk : Coalesced k) (hs : pendSVHandler k = some k') : Coalesced k' := by
  rcases pendSVHandler_spec hs with ⟨-, rfl⟩ | ⟨hflag, slot, hto, rfl⟩
  · exact hk
  have hcur := saveLive_currentThread k
  have hslot := hk.resumes hflag
  rw [hto] at hslot
  refine ⟨hcur.trans_ne hk.started, fun _ => ?_, fun h => by simp at h, fun h => by simp at h, ?_⟩
  · change some slot = k.saveLive.currentThread.map .sp
    rw [hcur, hslot]
  · intro slot' hlive
    cases hlive
    obtain ⟨c, -, rfl⟩ := Option.map_eq_some_iff.mp hslot.symm
    rfl

theorem Coalesced.step (hk : Coalesced k) (hi : Inv k L) (hc : k.CurrentRunnable)
    (hop : op ≠ .intExit) (hs : step board k op = some k') (hquiet : NoHandler k') :
    Coalesced k' := by
  by_cases hsection : op.IsSection
  · obtain ⟨L', hlaw⟩ := step_lawful hsection hi hc hs
    exact hk.switch hlaw.cpu hlaw.current (fun a ha => (hc a ha).1.trans_le hlaw.count) hquiet
  cases op with
  | start =>
    rw [Kernel.step, if_neg hk.started] at hs
    cases hs
  | intExit => exact absurd rfl hop
  | pendSV => exact hk.pendSV hs
  | run psp =>
    cases hs
    exact ⟨hk.started, hk.settled, hk.saves, hk.resumes, hk.normal⟩
  | _ => exact absurd trivial hsection

theorem coalesced_schedStart (hlive : k.cpu.live = none) (hs : schedStart k = some k') :
    Coalesced k' := by
  obtain ⟨t, -, hs⟩ := Option.bind_eq_some_iff.mp hs
  cases hs
  refine ⟨by simp, fun h => by simp [hwContextSwitchTo] at h, fun _ => hlive.symm, fun _ => rfl, ?_⟩
  intro slot hslot
  rw [show (hwContextSwitchTo k.cpu (.sp t)).live = k.cpu.live from rfl, hlive] at hslot
  cases hslot

theorem StartedRun.coalesced (hr : StartedRun board Ordinary k) (hquiet : NoHandler k) :
    Coalesced k := by
  have hr' := hr
  obtain ⟨k₀, k₁, hboot, hnone, hlive, hstart, hrun⟩ := hr
  induction hrun with
  | refl => exact coalesced_schedStart hlive hstart
  | tail hprefix hok hs ih =>
    have hbefore : StartedRun board Ordinary _ := ⟨k₀, k₁, hboot, hnone, hlive, hstart, hprefix⟩
    obtain ⟨L, hi, hc⟩ := hbefore.reachable.inv
    exact (ih hok.1 hbefore).step hi hc hok.2 hs hquiet

/-- What one `PendSV_Handler` did between `k` and `k'`. -/
structure ResumesCurrent (k k' : State) : Prop where
  idle : k.cpu.threadSwitchInterruptFlag = false → k' = k
  flag : k'.cpu.threadSwitchInterruptFlag = false
  live : k'.cpu.live = k.currentThread.map .sp
  loaded : k.cpu.threadSwitchInterruptFlag = true →
    ∀ c, k.currentThread = some c → k'.cpu.psp = (k'.thread c).sp + savedRegisterBytes
  saved : k.cpu.threadSwitchInterruptFlag = true →
    ∀ a, k.cpu.live = some (.sp a) → (k'.thread a).sp = k.cpu.psp - savedRegisterBytes
  others : ∀ u, k.cpu.live ≠ some (.sp u) → (k'.thread u).sp = (k.thread u).sp

theorem Coalesced.resumesCurrent (hk : Coalesced k) :
    ∃ k', pendSVHandler k = some k' ∧ ResumesCurrent k k' := by
  obtain ⟨c, hcur⟩ := Option.ne_none_iff_exists'.mp hk.started
  cases hflag : k.cpu.threadSwitchInterruptFlag with
  | false =>
    refine ⟨k, by simp [pendSVHandler, hflag], fun _ => rfl, hflag, hk.settled hflag, ?_, ?_,
      fun _ _ => rfl⟩
    · simp [hflag]
    · simp [hflag]
  | true =>
    have hfrom := hk.saves hflag
    have hto := hk.resumes hflag
    obtain ⟨k', hs⟩ : ∃ k', pendSVHandler k = some k' := by
      simp [pendSVHandler, hflag]
      rw [hcur, Option.map_some] at hto
      cases hlive : k.cpu.interruptFromThread with
      | none => simp [hto]
      | some slot => cases slot <;> simp [State.storeSlot, State.setThread, hto]
    refine ⟨k', hs, ?_⟩
    rcases pendSVHandler_spec hs with ⟨hfalse, -⟩ | ⟨-, slot, hslot, rfl⟩
    · rw [hflag] at hfalse
      cases hfalse
    rw [hslot] at hto
    refine ⟨by simp [hflag], rfl, hto, fun _ v hv => ?_, fun _ a ha => ?_, fun v hv => ?_⟩
    · rw [hv, Option.map_some, Option.some.injEq] at hto
      subst hto
      rfl
    · exact saveLive_saved (hfrom.trans ha)
    · exact saveLive_sp (hfrom ▸ hv)

theorem deferred_switch_coalesces (hr : StartedRun board Ordinary k) (hquiet : NoHandler k) :
    Coalesced k ∧ (∃ k', pendSVHandler k = some k' ∧ ResumesCurrent k k') ∧
      ∀ op k', op ≠ .pendSV → step board k op = some k' →
        ∀ u < k.count, (k'.thread u).sp = (k.thread u).sp := by
  have hk := hr.coalesced hquiet
  obtain ⟨L, hi, hc⟩ := hr.reachable.inv
  exact ⟨hk, hk.resumesCurrent, fun op k' hop hs u hu => step_sp hi hc hop hs hu⟩

/-- Two requests before one `PendSV_Handler`: thread 1 gives way to thread 2 and
gets the processor back. -/
theorem rotation_coalesces :
    ∃ k, startBoot threeThreads Ordinary [.pendSV, .run 0x20001100, .tick, .yieldRequeue,
        .switchThread] = some k ∧ k.currentThread = some 1 ∧
      k.cpu.threadSwitchInterruptFlag = true ∧ Coalesced k := by
  let inputs : List Op := [.pendSV, .run 0x20001100, .tick, .yieldRequeue, .switchThread]
  obtain ⟨k, hk⟩ := Option.isSome_iff_exists.mp
    (show (startBoot threeThreads Ordinary inputs).isSome = true by decide +kernel)
  have hfacts : (startBoot threeThreads Ordinary inputs).map (fun k =>
      (k.currentThread, k.cpu.threadSwitchInterruptFlag, decide (NoHandler k))) =
      some (some 1, true, true) := by decide +kernel
  rw [hk] at hfacts
  simp only [Option.map_some, Option.some.injEq, Prod.mk.injEq, decide_eq_true_eq] at hfacts
  obtain ⟨hcur, hflag, hquiet⟩ := hfacts
  exact ⟨k, hk, hcur, hflag, (deferred_switch_coalesces (startedRun_startBoot hk) hquiet).1⟩

end PosixRtos.Kernel
