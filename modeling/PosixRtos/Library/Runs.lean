import Mathlib.Data.List.Basic

/-! Runs of a partial step function. `none` ends a run: the step is not
defined there. `Reaches step ok s t` is a run from `s` to `t` all of whose
steps meet `ok` in the state they start from. -/
namespace PosixRtos.Library.Runs

inductive Reaches (step : σ → ι → Option σ) (ok : σ → ι → Prop) (start : σ) : σ → Prop where
  | refl : Reaches step ok start start
  | tail {s t : σ} {i : ι} :
      Reaches step ok start s → ok s i → step s i = some t → Reaches step ok start t

/-- No condition on the steps of a run. -/
def anyStep : σ → ι → Prop := fun _ _ => True

variable {step : σ → ι → Option σ} {ok : σ → ι → Prop} {start s t : σ}

theorem Reaches.invariant (inv : σ → Prop) (hrun : Reaches step ok start s)
    (hstart : inv start)
    (hstep : ∀ s i t, inv s → ok s i → step s i = some t → inv t) : inv s := by
  induction hrun with
  | refl => exact hstart
  | tail _ hok hs ih => exact hstep _ _ _ ih hok hs

theorem Reaches.trans (hst : Reaches step ok s t) (hrun : Reaches step ok start s) :
    Reaches step ok start t := by
  induction hst with
  | refl => exact hrun
  | tail _ hok hs ih => exact .tail ih hok hs

theorem Reaches.mono {ok' : σ → ι → Prop} (hrun : Reaches step ok start s)
    (himp : ∀ s i, ok s i → ok' s i) : Reaches step ok' start s := by
  induction hrun with
  | refl => exact .refl
  | tail _ hok hs ih => exact .tail ih (himp _ _ hok) hs

theorem Reaches.any (hrun : Reaches step ok start s) : Reaches step anyStep start s :=
  hrun.mono fun _ _ _ => trivial

instance (s : σ) (i : ι) : Decidable (anyStep s i) := inferInstanceAs (Decidable True)

/-- A run given by its inputs, with the condition checked before each step. -/
def runInputs (step : σ → ι → Option σ) (ok : σ → ι → Prop) [∀ s i, Decidable (ok s i)]
    (inputs : List ι) (s : σ) : Option σ :=
  inputs.foldlM (fun s i => if ok s i then step s i else none) s

theorem Reaches.of_runInputs [∀ s i, Decidable (ok s i)] {inputs : List ι}
    (h : runInputs step ok inputs s = some t) : Reaches step ok s t := by
  unfold runInputs at h
  induction inputs generalizing s with
  | nil =>
    cases h
    exact .refl
  | cons i rest ih =>
    rw [List.foldlM_cons] at h
    obtain ⟨u, hu, hrest⟩ := Option.bind_eq_some_iff.mp h
    split at hu
    · next hok => exact (ih hrest).trans (.tail .refl hok hu)
    · cases hu

/-- A run that remembers its inputs. -/
inductive Follows (step : σ → ι → Option σ) (ok : σ → ι → Prop) (start : σ) :
    List ι → σ → Prop where
  | nil : Follows step ok start [] start
  | snoc {inputs : List ι} {s t : σ} {i : ι} :
      Follows step ok start inputs s → ok s i → step s i = some t →
        Follows step ok start (inputs ++ [i]) t

/-- The last step of a run. -/
theorem Follows.last {inputs : List ι} {i : ι} (hrun : Follows step ok start (inputs ++ [i]) t) :
    ∃ s, Follows step ok start inputs s ∧ ok s i ∧ step s i = some t := by
  generalize hinputs : inputs ++ [i] = all at hrun
  cases hrun with
  | nil => cases List.append_ne_nil_of_right_ne_nil inputs (List.cons_ne_nil i []) hinputs
  | snoc hbefore hok hs =>
    obtain ⟨rfl, hlast⟩ := List.append_inj' hinputs rfl
    obtain rfl := List.singleton_inj.mp hlast
    exact ⟨_, hbefore, hok, hs⟩

/-- The inputs of a run determine its end. -/
theorem Follows.end_unique {ok' : σ → ι → Prop} {inputs : List ι}
    (hrun : Follows step ok start inputs s) (hrun' : Follows step ok' start inputs t) : s = t := by
  induction hrun generalizing t with
  | nil =>
    generalize hinputs : ([] : List ι) = all at hrun'
    cases hrun' with
    | nil => rfl
    | snoc _ _ _ => cases List.append_ne_nil_of_right_ne_nil _ (List.cons_ne_nil _ []) hinputs.symm
  | snoc _ _ hs ih =>
    obtain ⟨u, hbefore, -, hs'⟩ := hrun'.last
    rw [ih hbefore, hs'] at hs
    exact (Option.some.inj hs).symm

/-- The steps `j` of a run are bounded by what there is to do at its start, when
each of them leaves less to do and no other step leaves more. -/
theorem Follows.count_le [DecidableEq ι] {inputs : List ι} {work : Nat}
    (hrun : Follows step ok start inputs s) (j : ι) (amount : σ → Nat → Prop)
    (hstart : amount start work)
    (hstep : ∀ s i t n, amount s n → ok s i → step s i = some t →
      ∃ m, amount t m ∧ m + (if i = j then 1 else 0) ≤ n) :
    ∃ left, amount s left ∧ inputs.count j + left ≤ work := by
  induction hrun with
  | nil => exact ⟨work, hstart, by simp⟩
  | snoc _ hok hs ih =>
    obtain ⟨left, hamount, hcount⟩ := ih
    obtain ⟨m, hm, hle⟩ := hstep _ _ _ _ hamount hok hs
    refine ⟨m, hm, ?_⟩
    rw [List.count_append, List.count_singleton]
    simp only [beq_iff_eq]
    split at hle <;> simp_all <;> omega

/-- A loop over a list, with an invariant that knows what is still to be visited. -/
theorem foldlM_invariant {f : σ → ι → Option σ} {inv : List ι → σ → Prop}
    (hstep : ∀ i rest s, inv (i :: rest) s → ∃ t, f s i = some t ∧ inv rest t)
    (inputs : List ι) (s : σ) (hinv : inv inputs s) :
    ∃ t, inputs.foldlM f s = some t ∧ inv [] t := by
  induction inputs generalizing s with
  | nil => exact ⟨s, rfl, hinv⟩
  | cons i rest ih =>
    obtain ⟨u, hu, hrest⟩ := hstep i rest s hinv
    obtain ⟨t, ht, hnil⟩ := ih u hrest
    refine ⟨t, ?_, hnil⟩
    rw [List.foldlM_cons, hu]
    exact ht

end PosixRtos.Library.Runs
