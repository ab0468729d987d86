import PosixRtos.Kernel.Machine

/-! What a kernel step can do to the mutexes and semaphores it does not use, and
to the threads that do not take it. The users of one mutex or one semaphore see
the rest of the system only through these facts. -/
namespace PosixRtos.Kernel

open PosixRtos.Library.Rings PosixRtos.Library.Runs IntrusiveList

variable {board : Board} {k k' : State} {L L' : Head → List Tid} {t u : Tid} {h : Head} {op : Op}

def Op.UsesMutex (op : Op) (mutex : Nat) : Prop := op = .mutexLock mutex ∨ op = .mutexUnlock mutex

def Op.UsesSem (op : Op) (sem : Nat) : Prop := op = .semWait sem ∨ op = .semPost sem

/-- The steps that put the current thread to rest. -/
def State.Blocks (k : State) : Op → Prop
  | .msleep _ | .exit => True
  | .mutexLock mutex => k.ownThread mutex ≠ none ∧ k.ownThread mutex ≠ k.currentThread
  | .semWait sem => (k.sem sem).value = 0
  | _ => False

instance (op : Op) (mutex : Nat) : Decidable (op.UsesMutex mutex) :=
  inferInstanceAs (Decidable (_ ∨ _))

instance (op : Op) (sem : Nat) : Decidable (op.UsesSem sem) :=
  inferInstanceAs (Decidable (_ ∨ _))

instance (k : State) : ∀ op : Op, Decidable (k.Blocks op)
  | .msleep _ | .exit => .isTrue trivial
  | .mutexLock _ => inferInstanceAs (Decidable (_ ∧ _))
  | .semWait sem => inferInstanceAs (Decidable ((k.sem sem).value = 0))
  | .start | .create _ _ | .yieldRequeue | .switchThread | .tick | .mutexUnlock _ | .semPost _
  | .reportSignal _ | .intExit | .schedSuspend | .schedRecover _ | .pendSV | .run _ =>
      .isFalse not_false

/-- The step `op` from `k` to `k'`, seen from outside. -/
structure Frame (k : State) (L : Head → List Tid) (op : Op) (k' : State) (L' : Head → List Tid) :
    Prop where
  inv : Inv k' L'
  current : k'.CurrentRunnable
  count : k.count ≤ k'.count
  runnable : ∀ u < k.count, k.Runnable u → (k.Blocks op → k.currentThread ≠ some u) → k'.Runnable u
  mutex : ∀ m, ¬ op.UsesMutex m →
    k'.ownThread m = k.ownThread m ∧ L' (.mutexWait m) ⊆ L (.mutexWait m)
  sem : ∀ s, ¬ op.UsesSem s → k'.sem s = k.sem s ∧ L' (.semWait s) ⊆ L (.semWait s)

theorem Proceeds.frame (hp : Proceeds k L k' L') (op : Op) : Frame k L op k' L' where
  inv := hp.inv
  current := hp.current
  count := hp.count.ge
  runnable u _ hu _ := hp.runnable u hu
  mutex m _ := ⟨by rw [hp.ownThread], (hp.shrink _ (by simp)).subset⟩
  sem s _ := ⟨by rw [hp.sem], (hp.shrink _ (by simp)).subset⟩

/-- The lists that `t` does not go to only lose members. -/
theorem moved_subset {g : Head} (hgh : g ≠ h) : moved L t h g ⊆ L g := by
  rw [moved_of_ne hgh]
  exact List.erase_subset

theorem Parks.frame (hp : Parks k L t h k') (ht : k.currentThread = some t) (hblocks : k.Blocks op)
    (hmutex : ∀ m, h = .mutexWait m → op.UsesMutex m) (hsem : ∀ s, h = .semWait s → op.UsesSem s) :
    Frame k L op k' (moved L t h) where
  inv := hp.inv
  current := hp.current
  count := hp.count.ge
  runnable u _ hu hother := by
    refine (hp.runnable ?_).mpr hu
    rintro rfl
    exact hother hblocks ht
  mutex m hm := ⟨by rw [hp.ownThread], moved_subset fun h => hm (hmutex m h.symm)⟩
  sem s hs := ⟨by rw [hp.sem], moved_subset fun h => hs (hsem s h.symm)⟩

/-- A step that touches no queue and no thread. -/
theorem Inv.frame_of_same (hi : Inv k L) (hc : k.CurrentRunnable) (hsame : SameQueues k k')
    (hcur : k'.currentThread = k.currentThread)
    (hmutex : ∀ m, ¬ op.UsesMutex m → k'.ownThread m = k.ownThread m)
    (hsem : ∀ s, ¬ op.UsesSem s → k'.sem s = k.sem s) : Frame k L op k' L where
  inv := hi.congr hsame
  current := hc.of_same hsame hcur
  count := hsame.count.ge
  runnable u _ hu _ := (hsame.runnable_iff u).mpr hu
  mutex m hm := ⟨hmutex m hm, List.Subset.refl _⟩
  sem s hs := ⟨hsem s hs, List.Subset.refl _⟩

/-- Waking a waiter after a change to the object it waits for. -/
theorem wakeFirst_frame {k₁ : State} (hs : k₁.wakeFirst h = some k') (hi : Inv k L)
    (hc : k.CurrentRunnable) (hsame : SameQueues k k₁)
    (hcur : k₁.currentThread = k.currentThread)
    (hmutex : ∀ m, ¬ op.UsesMutex m → k₁.ownThread m = k.ownThread m)
    (hsem : ∀ s, ¬ op.UsesSem s → k₁.sem s = k.sem s) : ∃ L', Frame k L op k' L' := by
  have hi₁ := hi.congr hsame
  obtain ⟨-, rfl⟩ | ⟨t, rest, -, -, -, hp⟩ := wakeFirst_spec hi₁ hs
  · exact ⟨L, hi.frame_of_same hc hsame hcur hmutex hsem⟩
  have hframe := hp.frame op
  refine ⟨_, hframe.inv, hframe.current, hsame.count ▸ hframe.count, ?_, ?_, ?_⟩
  · intro u _ hrun _
    exact hp.runnable u ((hsame.runnable_iff u).mpr hrun)
  · intro m hm
    obtain ⟨hown, hsub⟩ := hframe.mutex m hm
    exact ⟨hown.trans (hmutex m hm), hsub⟩
  · intro s hs
    obtain ⟨heq, hsub⟩ := hframe.sem s hs
    exact ⟨heq.trans (hsem s hs), hsub⟩

theorem schedStart_frame (hi : Inv k L) (hs : schedStart k = some k') : Frame k L op k' L := by
  obtain ⟨t, ht, rfl⟩ := schedStart_spec hi hs
  refine ⟨hi.congr .outside, ?_, le_rfl, fun _ _ hu _ => hu,
    fun _ _ => ⟨rfl, List.Subset.refl _⟩, fun _ _ => ⟨rfl, List.Subset.refl _⟩⟩
  intro u hu
  cases hu
  have hrun := ht.runnable hi
  exact hrun

theorem Creates.frame (hcreates : Creates k L k' L') (op : Op) : Frame k L op k' L' where
  inv := hcreates.inv
  current := hcreates.current
  count := hcreates.count
  runnable u hu hrun _ := by
    unfold State.Runnable
    rwa [hcreates.thread u hu]
  mutex m _ := ⟨by rw [hcreates.ownThread], hcreates.shrink _ (by simp)⟩
  sem s _ := ⟨by rw [hcreates.sem], hcreates.shrink _ (by simp)⟩

theorem rawPthreadMutexLock_frame (hi : Inv k L) (hc : k.CurrentRunnable) {mutex : Nat} {r : Int}
    (hs : rawPthreadMutexLock k mutex = some (k', r)) :
    ∃ L', Frame k L (.mutexLock mutex) k' L' := by
  rcases rawPthreadMutexLock_cases hs with ⟨-, rfl, -⟩ | ⟨t, ht, hcase⟩
  · exact ⟨L, (Proceeds.refl hi hc).frame _⟩
  rcases hcase with ⟨-, -, rfl⟩ | ⟨-, -, rfl⟩ | ⟨owner, hown, hne, -, hsuspend⟩
  · refine ⟨L, hi.frame_of_same hc .outside rfl ?_ fun _ _ => rfl⟩
    intro m hm
    exact Function.update_of_ne (fun h => hm (.inl (by rw [h]))) _ _
  · exact ⟨L, (Proceeds.refl hi hc).frame _⟩
  · have hpark := suspendOn_spec hi (hc t ht).1 (Head.isWait_mutexWait mutex) hsuspend
    have hblocks : k.Blocks (.mutexLock mutex) := ⟨by simp [hown], by simpa [hown, ht] using hne⟩
    refine ⟨_, hpark.frame ht hblocks ?_ (by simp)⟩
    intro m hm
    cases hm
    exact .inl rfl

theorem pthreadMutexUnlock_frame (hi : Inv k L) (hc : k.CurrentRunnable) {mutex : Nat} {r : Int}
    (hs : pthreadMutexUnlock k mutex = some (k', r)) :
    ∃ L', Frame k L (.mutexUnlock mutex) k' L' := by
  rcases pthreadMutexUnlock_cases hs with ⟨-, rfl, -⟩ | ⟨t, -, hcase⟩
  · exact ⟨L, (Proceeds.refl hi hc).frame _⟩
  rcases hcase with ⟨-, -, hwake⟩ | ⟨-, -, rfl⟩
  · refine wakeFirst_frame hwake hi hc .outside rfl ?_ (fun _ _ => rfl)
    intro m hm
    exact Function.update_of_ne (fun h => hm (.inr (by rw [h]))) _ _
  · exact ⟨L, (Proceeds.refl hi hc).frame _⟩

theorem rawSemWait_frame (hi : Inv k L) (hc : k.CurrentRunnable) {sem : Nat} {r : Int}
    (hs : rawSemWait k sem = some (k', r)) : ∃ L', Frame k L (.semWait sem) k' L' := by
  rcases rawSemWait_cases hs with ⟨-, -, rfl⟩ | ⟨hzero, -, t, ht, hsuspend⟩
  · refine ⟨L, hi.frame_of_same hc .outside rfl (fun _ _ => rfl) ?_⟩
    intro s hs
    exact Function.update_of_ne (fun h => hs (.inl (by rw [h]))) _ _
  · have hpark := suspendOn_spec hi (hc t ht).1 (Head.isWait_semWait sem) hsuspend
    have hblocks : k.Blocks (.semWait sem) := hzero
    refine ⟨_, hpark.frame ht hblocks (by simp) ?_⟩
    intro s hs
    cases hs
    exact .inl rfl

theorem semPost_frame (hi : Inv k L) (hc : k.CurrentRunnable) {sem : Nat} {r : Int}
    (hs : semPost k sem = some (k', r)) : ∃ L', Frame k L (.semPost sem) k' L' := by
  rcases semPost_cases hs with ⟨-, -, rfl⟩ | ⟨-, -, hwake⟩
  · exact ⟨L, (Proceeds.refl hi hc).frame _⟩
  unfold State.incremented at hwake
  split at hwake
  · refine wakeFirst_frame hwake hi hc .outside rfl (fun _ _ => rfl) ?_
    intro s hs
    exact Function.update_of_ne (fun h => hs (.inr (by rw [h]))) _ _
  · exact wakeFirst_frame hwake hi hc .outside rfl (fun _ _ => rfl) (fun _ _ => rfl)

theorem rawPthreadIntExitEntry_frame (hi : Inv k L) (hc : k.CurrentRunnable)
    (hs : rawPthreadIntExitEntry k = some k') : Frame k L op k' L := by
  obtain ⟨hi', hc'⟩ := rawPthreadIntExitEntry_inv hi hc hs
  obtain ⟨t, ht, hs⟩ := Option.bind_eq_some_iff.mp hs
  cases hs
  refine ⟨hi', hc', le_rfl, ?_, fun _ _ => ⟨rfl, List.Subset.refl _⟩,
    fun _ _ => ⟨rfl, List.Subset.refl _⟩⟩
  intro u _ hu _
  by_cases hut : u = t
  · subst hut
    exact .inl (State.setStatus_self ..)
  · simpa [State.Runnable, State.setStatus_of_ne k hut] using hu

theorem pendSVHandler_frame (hi : Inv k L) (hc : k.CurrentRunnable)
    (hs : pendSVHandler k = some k') : Frame k L op k' L := by
  obtain ⟨hsame, hcur, hown, hsem⟩ := pendSVHandler_same hs
  exact hi.frame_of_same hc hsame hcur (fun _ _ => by rw [hown]) (fun _ _ => by rw [hsem])

theorem step_frame (hi : Inv k L) (hc : k.CurrentRunnable) (hs : step board k op = some k') :
    ∃ L', Frame k L op k' L' := by
  cases op with
  | start =>
    rw [step] at hs
    split at hs
    · exact ⟨L, schedStart_frame hi hs⟩
    · cases hs
  | create attr memory =>
    cases hs
    obtain ⟨L', hcreates⟩ := pthreadCreate_spec hi hc attr memory
    exact ⟨L', hcreates.frame _⟩
  | yieldRequeue =>
    obtain ⟨t, -, -, hp⟩ := schedYieldRequeue_spec hi hc hs
    exact ⟨_, hp.frame _⟩
  | switchThread => exact ⟨L, ((Evolves.refl hi).proceeds_switch rfl rfl hs).frame _⟩
  | tick =>
    obtain ⟨L', hp, -⟩ := schedProc_spec hi hc hs
    exact ⟨L', hp.frame _⟩
  | msleep ms =>
    obtain ⟨⟨k₁, r⟩, hcall, rfl⟩ := Option.map_eq_some_iff.mp hs
    rcases msleep_spec hi hc hcall with ⟨-, rfl⟩ | ⟨t, ht, hp⟩
    · exact ⟨L, (Proceeds.refl hi hc).frame _⟩
    · exact ⟨_, hp.frame ht trivial (by simp) (by simp)⟩
  | mutexLock mutex =>
    obtain ⟨⟨k₁, r⟩, hcall, rfl⟩ := Option.map_eq_some_iff.mp hs
    exact rawPthreadMutexLock_frame hi hc hcall
  | mutexUnlock mutex =>
    obtain ⟨⟨k₁, r⟩, hcall, rfl⟩ := Option.map_eq_some_iff.mp hs
    exact pthreadMutexUnlock_frame hi hc hcall
  | semWait sem =>
    obtain ⟨⟨k₁, r⟩, hcall, rfl⟩ := Option.map_eq_some_iff.mp hs
    exact rawSemWait_frame hi hc hcall
  | semPost sem =>
    obtain ⟨⟨k₁, r⟩, hcall, rfl⟩ := Option.map_eq_some_iff.mp hs
    exact semPost_frame hi hc hcall
  | reportSignal thread =>
    rw [step] at hs
    split at hs
    · next hlt =>
      obtain ⟨⟨k₁, r⟩, hcall, rfl⟩ := Option.map_eq_some_iff.mp hs
      rcases rawSchedReportSignal_spec hi hlt hcall with ⟨-, -, rfl⟩ | ⟨-, -, -, -, hp⟩
      · exact ⟨L, (Proceeds.refl hi hc).frame _⟩
      · exact ⟨_, hp.frame _⟩
    · cases hs
  | intExit => exact ⟨L, rawPthreadIntExitEntry_frame hi hc hs⟩
  | exit =>
    obtain ⟨t, ht, hp⟩ := rawPthreadExitEntry_spec hi hc hs
    exact ⟨_, hp.frame ht trivial (by simp) (by simp)⟩
  | schedSuspend | schedRecover | run =>
    cases hs
    exact ⟨L, hi.frame_of_same hc .outside rfl (fun _ _ => rfl) (fun _ _ => rfl)⟩
  | pendSV => exact ⟨L, pendSVHandler_frame hi hc hs⟩

/-- Any runnable thread goes on, whatever the scheduler would choose. -/
def State.dispatch (k : State) (t : Tid) : Option State :=
  if t < k.count ∧ k.Runnable t then some { k with currentThread := some t } else none

theorem dispatch_inv (hi : Inv k L) (hs : k.dispatch t = some k') :
    k' = { k with currentThread := some t } ∧ Inv k' L ∧ k'.CurrentRunnable := by
  unfold State.dispatch at hs
  split at hs
  · next hrun =>
    cases hs
    refine ⟨rfl, hi.congr .outside, fun u hu => ?_⟩
    cases hu
    exact hrun
  · cases hs

theorem current_notMem_wait (hi : Inv k L) (hc : k.CurrentRunnable)
    (ht : k.currentThread = some t) (hw : h.IsWait) : t ∉ L h := by
  intro hmem
  have hready := (hi.runnable_iff (hc t ht).1).mp (hc t ht).2
  exact hw.ne_ready _ (hi.lists.unique hmem hready)

end PosixRtos.Kernel
