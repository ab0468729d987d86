import Mathlib.Data.Fintype.Basic
import PosixRtos.Signal.Loops

/-! Every event block has one owner, every `sigevent_list` is circular, and a
handler loop to which nothing more is reported comes to its end. -/
namespace PosixRtos.Signal

open PosixRtos.Library.Rings PosixRtos.Library.Runs PosixRtos.Kernel.IntrusiveList

variable {T C : Type} {s s' : State T C} {t : T} {b : Block} {pc : HandlerPc T}

/-- Up to the moment a call sets the flag, the block it has chosen is free. -/
def State.visible (s : State T C) : Owner T C → Owner T C
  | .call c => if (s.calls c).pc.reserved.isSome then .call c else .free
  | o => o

theorem visible_eq_queue {o : Owner T C} : .queue t = s.visible o ↔ o = .queue t := by
  cases o with
  | call c =>
    simp only [State.visible, reduceCtorEq, iff_false]
    split <;> simp
  | _ => simp [State.visible, eq_comm]

theorem visible_eq_handler {o : Owner T C} : .handler t = s.visible o ↔ o = .handler t := by
  cases o with
  | call c =>
    simp only [State.visible, reduceCtorEq, iff_false]
    split <;> simp
  | _ => simp [State.visible, eq_comm]

theorem visible_eq_call {o : Owner T C} {c : C} :
    .call c = s.visible o ↔ o = .call c ∧ (s.calls c).pc.reserved.isSome := by
  cases o with
  | call d =>
    simp only [State.visible]
    split <;> grind
  | _ => simp [State.visible]

variable [DecidableEq T] {waiting : T → List Block} {owner : Block → Owner T C}

/-- No handler loop is busy with the block. -/
def State.Untouched (s : State T C) (b : Block) : Prop :=
  ∀ t, ∀ pc ∈ s.handlers t, pc.block ≠ some b

/-- What it is to own a block, when the lists link the blocks `linked`. -/
def Owns (s : State T C) (linked : T → List Block) (b : Block) : Owner T C → Prop
  | .free => s.flag b = false ∧ (∀ t, b ∉ linked t) ∧ s.Untouched b
  | .call c => (s.calls c).pc.reserved = some b
  | .queue t => b ∈ linked t ∧ s.flag b = true ∧ s.Untouched b
  | .handler t => ∃ pc ∈ s.handlers t, pc.block = some b

/-- A list is circular but for the second store of a removal by its own loop. -/
structure OneOwner (s : State T C) (linked : T → List Block) : Prop where
  owner : ∀ b, ∃! o, Owns s linked b o
  circular : ∀ t, (settle s.links ((leavingOf (s.handlers t)).map .node)).Ring (.head t)
    ((linked t).map .node)
  once : ∀ t, (linked t).Nodup
  single : ∀ t, (s.handlers t).length ≤ 1

theorem reserved_block {pc : CallPc} (h : pc.reserved = some b) : pc.block = some b := by
  cases pc <;> simp_all [CallPc.reserved]

theorem Inv.handler_iff (hi : Inv s waiting owner) :
    (∃ pc ∈ s.handlers t, pc.block = some b) ↔ owner b = .handler t := by
  rw [← (hi.loop t).handler b, blockOf]
  have hsingle := (hi.loop t).single
  cases hpcs : s.handlers t with
  | nil => simp
  | cons pc rest =>
    have hrest : rest = [] := by simpa [hpcs] using hsingle
    simp [hrest]

theorem Inv.untouched_iff (hi : Inv s waiting owner) :
    s.Untouched b ↔ ∀ t, owner b ≠ .handler t := by
  constructor
  · intro hfree t howner
    obtain ⟨pc, hpc, hblock⟩ := hi.handler_iff.mpr howner
    exact hfree t pc hpc hblock
  · intro howner t pc hpc hblock
    exact howner t (hi.handler_iff.mp ⟨pc, hpc, hblock⟩)

theorem Inv.owns_iff (hi : Inv s waiting owner) (o : Owner T C) :
    Owns s (fun t => linkedOf (s.handlers t) (waiting t)) b o ↔ o = s.visible (owner b) := by
  have hflag := hi.flag b
  have hlinked : ∀ t, b ∈ linkedOf (s.handlers t) (waiting t) →
      owner b = .queue t ∨ owner b = .handler t := fun t => (hi.loop t).owner_of_linked
  have hwaiting : ∀ t, owner b = .queue t → b ∈ linkedOf (s.handlers t) (waiting t) := fun t h =>
    List.mem_append_right _ (((hi.loop t).queue b).mpr h)
  have hreserved : ∀ c, (s.calls c).pc.reserved = some b → owner b = .call c := fun c h =>
    (hi.call c b).mp (reserved_block h)
  have hcall : ∀ c, owner b = .call c → (s.calls c).pc.reserved.isSome = true →
      (s.calls c).pc.reserved = some b := by
    intro c howner hsome
    obtain ⟨x, hx⟩ := Option.isSome_iff_exists.mp hsome
    have hblock := (hi.call c b).mpr howner
    rw [reserved_block hx] at hblock
    rw [hx, hblock]
  cases o with
  | free =>
    simp only [Owns, hi.untouched_iff]
    cases howner : owner b with
    | free => simp_all [State.flagOf, State.visible]
    | call c =>
      simp only [howner, State.flagOf] at hflag hlinked
      simp only [hflag, State.visible]
      cases (s.calls c).pc.reserved.isSome <;> grind
    | queue t => simp_all [State.flagOf, State.visible]
    | handler t => simp [State.visible]
  | call c =>
    simp only [Owns, visible_eq_call]
    constructor
    · intro h
      exact ⟨hreserved c h, by simp [h]⟩
    · intro h
      exact hcall c h.1 h.2
  | queue t =>
    simp only [Owns, hi.untouched_iff, visible_eq_queue]
    constructor
    · rintro ⟨hmem, -, hfree⟩
      exact (hlinked t hmem).resolve_right (hfree t)
    · intro howner
      rw [howner] at hflag
      exact ⟨hwaiting t howner, hflag, by simp [howner]⟩
  | handler t => simp only [Owns, hi.handler_iff, visible_eq_handler]

theorem Inv.oneOwner (hi : Inv s waiting owner) :
    OneOwner s fun t => linkedOf (s.handlers t) (waiting t) where
  owner b := ⟨s.visible (owner b), (hi.owns_iff _).mpr rfl, fun o ho => (hi.owns_iff o).mp ho⟩
  circular t := (hi.loop t).list.ring
  once t := (hi.loop t).list.nodup
  single t := (hi.loop t).single

/-! How much a handler loop has still to do. -/

/-- A bound on the statements of a loop, with `entries` entries in the `sig_list`
and `waiting` blocks in the list. -/
def HandlerPc.work (entries waiting : Nat) : HandlerPc T → Nat
  | .exit => 1
  | .test _ => waiting * (2 * entries + 7) + 2
  | .loadHead => waiting * (2 * entries + 7) + 3
  | .unlinkPrev _ => waiting * (2 * entries + 7) + 4
  | .unlinkNext _ => waiting * (2 * entries + 7) + 5
  | .free _ => waiting * (2 * entries + 7) + 6
  | .notify _ sig => waiting * (2 * entries + 7) + 2 * (entries - sig) + 6
  | .compare _ sig => waiting * (2 * entries + 7) + 2 * (entries - sig) + 7

def workOf (entries : Nat) (pcs : List (HandlerPc T)) (waiting : Nat) : Nat :=
  pcs.head?.elim 0 (HandlerPc.work entries waiting)

/-- The loop of `t` in `s` has at most `n` statements to go. -/
def Remains (t : T) (s : State T C) (n : Nat) : Prop :=
  ∃ waiting owner, Inv s waiting owner ∧
    workOf (s.sigList t).length (s.handlers t) (waiting t).length = n

/-- A step that reports nothing to `t` and registers no further handler of `t`. -/
def Quiet (t : T) (s : State T C) : Op T C → Prop
  | .report c _ => (s.calls c).pid ≠ t
  | .signal u _ _ => u ≠ t
  | _ => True

theorem handlePc_work (hi : Inv s waiting owner) (hpcs : s.handlers t = [pc])
    (hs : s.handlePc t [] pc = some s') :
    workOf (s.sigList t).length (s'.handlers t) (taken [pc] (waiting t)).length <
      workOf (s.sigList t).length [pc] (waiting t).length := by
  cases pc with
  | loadHead | free | unlinkNext | unlinkPrev | exit =>
    cases hs
    simp [workOf, HandlerPc.work, taken]
  | test pos =>
    cases pos with
    | head u =>
      rw [State.handlePc] at hs
      split at hs
      · cases hs
        simp [workOf, HandlerPc.work, taken]
      · cases hs
    | node b =>
      cases hs
      obtain ⟨rest, hrest⟩ := List.head?_eq_some_iff.mp
        ((hi.loop t).test b (by rw [hpcs]; exact List.mem_singleton.mpr rfl))
      simp only [workOf, setHandlers_self, List.head?_cons, Option.elim_some, HandlerPc.work, taken,
        hrest, List.tail_cons, List.length_cons, Nat.add_mul, Nat.one_mul]
      omega
  | compare b i =>
    rw [State.handlePc] at hs
    split at hs
    · cases hs
      simp only [workOf, setHandlers_self, List.head?_cons, Option.elim_some, HandlerPc.work, taken]
      omega
    · next entry hentry =>
      have hlt := (List.getElem?_eq_some_iff.mp hentry).1
      split at hs
      · cases hs
        simp [workOf, HandlerPc.work, taken]
      · cases hs
        simp only [workOf, setHandlers_self, List.head?_cons, Option.elim_some, HandlerPc.work,
          taken]
        omega
  | notify b i =>
    obtain ⟨entry, hentry, hs⟩ := Option.bind_eq_some_iff.mp hs
    have hlt := (List.getElem?_eq_some_iff.mp hentry).1
    cases hs
    simp only [workOf, setHandlers_self, List.head?_cons, Option.elim_some, HandlerPc.work, taken]
    omega

/-- A loop that is under way has a next statement. -/
theorem handlePc_defined (hi : Inv s waiting owner) (hpcs : s.handlers t = [pc]) :
    ∃ s', s.handlePc t [] pc = some s' := by
  have hloop := hi.loop t
  rw [hpcs] at hloop
  cases pc with
  | test pos =>
    cases pos with
    | head u =>
      rw [State.handlePc, if_pos (hloop.home u (List.mem_singleton.mpr rfl))]
      exact ⟨_, rfl⟩
    | node b => exact ⟨_, rfl⟩
  | compare b i =>
    rw [State.handlePc]
    split
    · exact ⟨_, rfl⟩
    · split <;> exact ⟨_, rfl⟩
  | notify b i =>
    have hlt := hloop.notify b i (List.mem_singleton.mpr rfl)
    rw [State.handlePc, List.getElem?_eq_getElem hlt]
    exact ⟨_, rfl⟩
  | _ => exact ⟨_, rfl⟩

/-- Only its own statements bring a loop forward, as long as nothing is reported. -/
theorem Remains.step [DecidableEq C] {op : Op T C} {n : Nat} (hr : Remains t s n)
    (hok : Orderly s op) (hquiet : Quiet t s op) (hs : step s op = some s') :
    ∃ m, Remains t s' m ∧ m + (if op = .handle t then 1 else 0) ≤ n := by
  obtain ⟨waiting, owner, hi, rfl⟩ := hr
  obtain ⟨owner', hi'⟩ := step_inv hi hok hs
  refine ⟨_, ⟨_, owner', hi', rfl⟩, ?_⟩
  -- every other step leaves the loop of `t`, its list and its handlers as they are
  have hkept : s'.sigList t = s.sigList t → s'.handlers t = s.handlers t →
      s.waitingAfter waiting op t = waiting t → op ≠ .handle t →
      workOf (s'.sigList t).length (s'.handlers t) (s.waitingAfter waiting op t).length +
          (if op = .handle t then 1 else 0) ≤
        workOf (s.sigList t).length (s.handlers t) (waiting t).length := by
    intro hentries hpcs hwaiting hop
    rw [hentries, hpcs, hwaiting, if_neg hop, Nat.add_zero]
  cases op with
  | sigqueue c pid signo value =>
    change s.sigqueue c pid signo value = some s' at hs
    unfold State.sigqueue at hs
    split at hs
    · cases hs
      exact hkept rfl rfl rfl (by simp)
    · cases hs
  | call c =>
    have hframe := callStep_frame hs
    exact hkept (by rw [hframe.sigList]) (by rw [hframe.handlers]) rfl (by simp)
  | report c starts =>
    have hne : t ≠ (s.calls c).pid := fun h => hquiet h.symm
    have hwaiting := Function.update_of_ne hne
      (waiting (s.calls c).pid ++ (s.calls c).pc.block.toList) waiting
    obtain ⟨b, -, hcase⟩ := sigeventReport_cases hs
    rcases hcase with ⟨rfl, -⟩ | ⟨rfl, -⟩
    · exact hkept rfl rfl hwaiting (by simp)
    · exact hkept rfl (setHandlers_of_ne _ hne _) hwaiting (by simp)
  | handle u =>
    obtain ⟨pc, outer, hpcs, hs⟩ := handleStep_cases hs
    by_cases hut : t = u
    · subst hut
      obtain ⟨hsingle, rfl⟩ := hi.handlers_eq hpcs
      have hless := handlePc_work hi hsingle hs
      rw [if_pos rfl, (handlePc_frame hs).sigList]
      simp only [State.waitingAfter, Function.update_self, hsingle]
      exact hless
    · have hframe := handlePc_frame hs
      have hwaiting := Function.update_of_ne hut (taken (s.handlers u) (waiting u)) waiting
      exact hkept (by rw [hframe.sigList]) (hframe.handlers t hut) hwaiting
        (by simpa using fun h => hut h.symm)
  | signal u signum handler =>
    cases hs
    have hne : t ≠ u := fun h => hquiet h.symm
    exact hkept (Function.update_of_ne hne ..) rfl rfl (by simp)

/-- The loop of `t` comes to its end: it always has a next statement, and in any
run in which nothing is reported to `t` it takes only so many of them. -/
def Halts [DecidableEq C] (s : State T C) (t : T) : Prop :=
  ∃ bound, ∀ ops s', Follows step (fun s op => Orderly s op ∧ Quiet t s op) s ops s' →
    ops.count (.handle t) ≤ bound ∧ (s'.handlers t = [] ∨ (step s' (.handle t)).isSome)

theorem Inv.halts [DecidableEq C] (hi : Inv s waiting owner) (t : T) : Halts s t := by
  refine ⟨workOf (s.sigList t).length (s.handlers t) (waiting t).length, fun ops s' hrun => ?_⟩
  obtain ⟨left, ⟨waiting', owner', hi', -⟩, hcount⟩ :=
    hrun.count_le (.handle t) (Remains t) ⟨waiting, owner, hi, rfl⟩
      (fun _ _ _ _ hr hok hs => hr.step hok.1 hok.2 hs)
  refine ⟨by omega, ?_⟩
  cases hpcs : s'.handlers t with
  | nil => exact .inl rfl
  | cons pc outer =>
    obtain ⟨hsingle, rfl⟩ := hi'.handlers_eq hpcs
    obtain ⟨s'', hs⟩ := handlePc_defined hi' hsingle
    refine .inr ?_
    simp [step, State.handleStep, hpcs, hs]

/-- In every run whose steps are orderly, each block has one owner, each list is
circular, and each handler loop ends once nothing is reported to its thread. -/
theorem blocks_have_one_owner [DecidableEq C] {start : State T C} (hstart : Initial start)
    (hrun : Reaches step Orderly start s) :
    (∃ linked, OneOwner s linked) ∧ ∀ t, Halts s t := by
  have hinv : ∃ waiting owner, Inv s waiting owner := by
    refine hrun.invariant (fun s => ∃ waiting owner, Inv s waiting owner)
      ⟨_, _, initial_inv hstart⟩ ?_
    rintro s op s' ⟨waiting, owner, hi⟩ hok hs
    obtain ⟨owner', hi'⟩ := step_inv hi hok hs
    exact ⟨_, owner', hi'⟩
  obtain ⟨waiting, owner, hi⟩ := hinv
  exact ⟨⟨_, hi.oneOwner⟩, hi.halts⟩

section Executable

variable [Fintype T] [Fintype C]

instance (s : State T C) (b : Block) : Decidable (s.Contended b) :=
  inferInstanceAs (Decidable ((∃ _, _) ∨ ∃ _, _))

instance (s : State T C) : ∀ op, Decidable (Orderly s op)
  | .call _ => inferInstanceAs (Decidable (∀ i < sigEventTable, _ → ¬ s.Contended i))
  | .report _ starts => inferInstanceAs (Decidable ((starts = true → _ = []) ∧ ∀ _ ∈ _, _))
  | .sigqueue _ _ _ _ | .handle _ | .signal _ _ _ => .isTrue trivial

end Executable

/-- Two threads that have received no signal, and two callers. -/
def unsignalled : State (Fin 2) (Fin 2) where
  flag _ := false
  signo _ := 0
  value _ := 0
  links := ⟨id, id⟩
  sigList _ := []
  calls _ := ⟨0, 0, 0, .returned none⟩
  handlers _ := []
  notified _ := []

theorem unsignalled_initial : Initial unsignalled where
  flag _ := rfl
  list _ := Links.ring_nil_iff.mpr ⟨rfl, rfl⟩
  calls _ := rfl
  handlers _ := rfl
  notified _ := rfl

/-- Caller `c` calls `sigqueue` for thread `t` and reaches `__sigevent_report`
with the first block it tests. -/
def queueing (c t : Fin 2) : List (Op (Fin 2) (Fin 2)) :=
  .sigqueue c t 5 7 :: List.replicate 6 (.call c)

/-- Thread 0 registers a handler and is sent two signals, one of them while its
loop is in the handler, and the loop runs to its end. -/
def twoSignals : List (Op (Fin 2) (Fin 2)) :=
  Op.signal 0 5 1 :: queueing 0 0 ++
    [Op.report 0 true, Op.handle 0, Op.handle 0, Op.handle 0] ++ [Op.sigqueue 1 0 5 8] ++
    List.replicate 7 (Op.call 1) ++ [Op.report 1 false] ++ List.replicate 15 (Op.handle 0)

theorem twoSignals_have_one_owner :
    ∃ s, runInputs step Orderly twoSignals unsignalled = some s ∧
      s.notified 0 = [⟨1, 7⟩, ⟨1, 8⟩] ∧ (∃ linked, OneOwner s linked) ∧ ∀ t, Halts s t := by
  obtain ⟨s, hs⟩ := Option.isSome_iff_exists.mp
    (show (runInputs step Orderly twoSignals unsignalled).isSome = true by decide +kernel)
  have hlog : (runInputs step Orderly twoSignals unsignalled).map (fun s => s.notified 0) =
      some [⟨1, 7⟩, ⟨1, 8⟩] := by decide +kernel
  rw [hs] at hlog
  exact ⟨s, hs, Option.some.inj hlog,
    blocks_have_one_owner unsignalled_initial (.of_runInputs hs)⟩

/-- The loop of thread 0 has cleared the flag of block 0 and is about to remove
it when caller 1 finds the flag clear and reserves the block. -/
def reservedTooEarly : List (Op (Fin 2) (Fin 2)) :=
  queueing 0 0 ++ [Op.report 0 true] ++ List.replicate 4 (Op.handle 0) ++
    [Op.sigqueue 1 1 5 8, Op.call 1, Op.call 1, Op.call 1]

theorem reservedTooEarly_has_two_owners :
    ∃ s, Reaches step anyStep unsignalled s ∧ ¬ ∃ linked, OneOwner s linked := by
  obtain ⟨s, hs⟩ := Option.isSome_iff_exists.mp
    (show (runInputs step anyStep reservedTooEarly unsignalled).isSome = true by decide +kernel)
  refine ⟨s, .of_runInputs hs, ?_⟩
  have hfacts : (runInputs step anyStep reservedTooEarly unsignalled).map
      (fun s => ((s.calls 1).pc, s.handlers 0)) =
        some (.unlock (some 0), [.unlinkNext 0]) := by decide +kernel
  rw [hs] at hfacts
  obtain ⟨hpc, hpcs⟩ := Prod.mk.inj (Option.some.inj hfacts)
  rintro ⟨linked, hone⟩
  have hcall : Owns s linked 0 (.call 1) := by
    change (s.calls 1).pc.reserved = some 0
    rw [hpc]
    rfl
  have hloop : Owns s linked 0 (.handler 0) := ⟨.unlinkNext 0, by rw [hpcs]; simp, rfl⟩
  have hsame := (hone.owner 0).unique hcall hloop
  cases hsame

end PosixRtos.Signal
