import PosixRtos.Kernel.Handler
import PosixRtos.Kernel.Interference

/-! Threads that have exited. `__pthread_exit_entry` moves the caller to the
delete list, where nothing collects it: the object stays, and every operation
that is given a thread may still be given this one. -/
namespace PosixRtos.Kernel

open PosixRtos.Library.Rings PosixRtos.Library.Runs IntrusiveList

variable {board : Board} {k k' k₀ k₁ : State} {L : Head → List Tid} {t u : Tid} {op : Op}

structure Retired (k : State) (t : Tid) : Prop where
  status : (k.thread t).status = .closed
  unlisted : ∃ L, Represents k L ∧ t ∈ L .delete ∧ ∀ p, t ∉ L (.ready p)
  stopped : k.currentThread ≠ some t

/-- The status decides: the lists and the current thread follow it. -/
theorem retired_of_closed (hi : Inv k L) (hc : k.CurrentRunnable) (ht : t < k.count)
    (hclosed : (k.thread t).status = .closed) : Retired k t where
  status := hclosed
  unlisted := by
    obtain ⟨h, hmem, hn⟩ := hi.placed t ht
    rw [hclosed] at hn
    refine ⟨L, hi.represents, ?_, ?_⟩
    · cases h <;> simp_all [Status.Names]
    · intro p hready
      have hrun := (hi.runnable_of_ready hready).1
      simp [State.Runnable, hclosed] at hrun
  stopped := by
    intro hcur
    have hrun := (hc t hcur).2
    simp [State.Runnable, hclosed] at hrun

/-- Only a signal that is reported to a closed thread changes its status. -/
theorem step_closed (hi : Inv k L) (hc : k.CurrentRunnable) (ht : t < k.count)
    (hclosed : (k.thread t).status = .closed) (hsignal : op ≠ .reportSignal t)
    (hs : step board k op = some k') : (k'.thread t).status = .closed := by
  have hstopped := (retired_of_closed hi hc ht hclosed).stopped
  by_cases hsection : op.IsSection
  · rw [step_status hsection hi hc ht (by simp [hclosed]) (by simp [hclosed]) hsignal
      (fun hcur => absurd hcur hstopped) hs, hclosed]
  cases op with
  | start =>
    rw [step] at hs
    split at hs
    · obtain ⟨v, -, rfl⟩ := schedStart_spec hi hs
      exact hclosed
    · cases hs
  | intExit =>
    obtain ⟨c, hcur, hs⟩ := Option.bind_eq_some_iff.mp hs
    cases hs
    have htc : t ≠ c := by
      rintro rfl
      exact hstopped hcur
    rw [State.setStatus_of_ne k htc]
    exact hclosed
  | pendSV =>
    obtain ⟨hsame, -⟩ := pendSVHandler_same hs
    rw [hsame.status, hclosed]
  | run psp =>
    cases hs
    exact hclosed
  | _ => exact absurd trivial hsection

/-- What is kept along a run after the exit. -/
private def Exited (board : Board) (t : Tid) (k : State) : Prop :=
  Reachable board k ∧ t < k.count ∧ (k.thread t).status = .closed

private theorem exited_after (hr : Reachable board k₀) (ht : k₀.currentThread = some t)
    (hexit : rawPthreadExitEntry k₀ = some k₁) : Exited board t k₁ := by
  obtain ⟨L, hi, hc⟩ := hr.inv
  obtain ⟨c, hcur, hp⟩ := rawPthreadExitEntry_spec hi hc hexit
  rw [ht] at hcur
  cases hcur
  refine ⟨hr.tail .exit hexit, hp.count ▸ (hc t ht).1, ?_⟩
  have hmem : t ∈ moved L t .delete .delete := mem_moved_self ..
  exact hp.inv.names_of_mem hmem

/-- A thread that has exited stays closed, in the delete list and off the
processor, as long as no signal is reported to it. -/
theorem exited_stays_retired (hr : Reachable board k₀) (ht : k₀.currentThread = some t)
    (hexit : rawPthreadExitEntry k₀ = some k₁)
    (hrun : Reaches (step board) (fun _ op => op ≠ .reportSignal t) k₁ k) : Retired k t := by
  have hkept : Exited board t k := by
    refine hrun.invariant (Exited board t) (exited_after hr ht hexit) ?_
    rintro s op s' ⟨hreach, hlt, hclosed⟩ hsignal hs
    obtain ⟨L, hi, hc⟩ := hreach.inv
    obtain ⟨L', hframe⟩ := step_frame hi hc hs
    exact ⟨hreach.tail _ hs, hlt.trans_le hframe.count, step_closed hi hc hlt hclosed hsignal hs⟩
  obtain ⟨hreach, hlt, hclosed⟩ := hkept
  obtain ⟨L, hi, hc⟩ := hreach.inv
  exact retired_of_closed hi hc hlt hclosed

/-- Thread 1 runs and exits; then the given inputs. -/
def exited (ok : State → Op → Prop) [∀ k op, Decidable (ok k op)] (inputs : List Op) :
    Option (State × State × State) := do
  let k₀ ← boot (threeThreads ++ [.start, .pendSV])
  let k₁ ← rawPthreadExitEntry k₀
  let k ← runInputs (step discoveryBoard) ok inputs k₁
  if k₀.currentThread = some 1 then some (k₀, k₁, k) else none

private theorem exited_spec {ok : State → Op → Prop} [∀ k op, Decidable (ok k op)]
    {inputs : List Op} (h : exited ok inputs = some (k₀, k₁, k)) :
    Reachable discoveryBoard k₀ ∧ k₀.currentThread = some 1 ∧
      rawPthreadExitEntry k₀ = some k₁ ∧ Reaches (step discoveryBoard) ok k₁ k := by
  simp only [exited, Option.bind_eq_bind, Option.bind_eq_some_iff] at h
  obtain ⟨k₀, hboot, k₁, hexit, k, hrun, h⟩ := h
  split at h
  · next hcur =>
    cases h
    exact ⟨reachable_boot hboot, hcur, hexit, .of_runInputs hrun⟩
  · cases h

/-- Ticks, posts and signals to the others leave thread 1 alone. -/
theorem thread1_stays_retired :
    ∃ k₀ k₁ k, exited (fun _ op => op ≠ .reportSignal 1)
        [.pendSV, .tick, .semPost 0, .reportSignal 2, .mutexUnlock 0, .pendSV] = some (k₀, k₁, k) ∧
      Retired k 1 := by
  obtain ⟨⟨k₀, k₁, k⟩, h⟩ := Option.isSome_iff_exists.mp
    (show (exited (fun _ op => op ≠ .reportSignal 1)
      [.pendSV, .tick, .semPost 0, .reportSignal 2, .mutexUnlock 0, .pendSV]).isSome = true by
        decide +kernel)
  obtain ⟨hr, hcur, hexit, hrun⟩ := exited_spec h
  exact ⟨k₀, k₁, k, h, exited_stays_retired hr hcur hexit hrun⟩

/-- A signal queued to the pid of thread 1 after its exit: the check for `INT`
passes, the thread is put into its ready list, and the next slice is its own. -/
theorem signal_revives_closed_thread :
    ∃ k₀ k₁ k, Reachable discoveryBoard k₀ ∧ k₀.currentThread = some 1 ∧
      rawPthreadExitEntry k₀ = some k₁ ∧ Reaches (step discoveryBoard) anyStep k₁ k ∧
      (k.thread 1).status ≠ .closed ∧ k.currentThread = some 1 := by
  let inputs : List Op := [.pendSV, .reportSignal 1, .tick]
  obtain ⟨⟨k₀, k₁, k⟩, h⟩ := Option.isSome_iff_exists.mp
    (show (exited anyStep inputs).isSome = true by decide +kernel)
  obtain ⟨hr, hcur, hexit, hrun⟩ := exited_spec h
  have hfacts : (exited anyStep inputs).map (fun k =>
      ((k.2.2.thread 1).status, k.2.2.currentThread)) = some (.int, some 1) := by decide +kernel
  rw [h] at hfacts
  obtain ⟨hstatus, hagain⟩ := Prod.mk.inj (Option.some.inj hfacts)
  have hint : (k.thread 1).status = .int := hstatus
  exact ⟨k₀, k₁, k, hr, hcur, hexit, hrun, by simp [hint], hagain⟩

end PosixRtos.Kernel
