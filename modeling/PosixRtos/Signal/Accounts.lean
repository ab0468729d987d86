import PosixRtos.Signal.Deliveries

/-! The accounts of all threads together. A block carries the event of the call
that fills it in, and keeps it until the handlers have been called. -/
namespace PosixRtos.Signal

open PosixRtos.Library.Rings PosixRtos.Library.Runs PosixRtos.Kernel.IntrusiveList

variable {T C : Type}

/-- All accounts are in order, and so are the blocks that calls are filling in. -/
structure Accounts (s : State T C) (waiting : T → List Block) (queued : T → List Queued) :
    Prop where
  ledger : ∀ t, ∃ done current rest, Ledger s (waiting t) t (queued t) done current rest
  storeValue : ∀ c b, (s.calls c).pc = .storeValue b → s.signo b = (s.calls c).signo
  report : ∀ c b, (s.calls c).pc = .report b →
    s.event b = ((s.calls c).signo, (s.calls c).value)

theorem initial_accounts {s : State T C} (hs : Initial s) :
    Accounts s (fun _ => []) (fun _ => []) where
  ledger t := by
    refine ⟨[], none, [], rfl, rfl, ?_, by simp, by simp, by simp, ?_, by simp, ?_⟩
    · rw [hs.notified t]
      rfl
    · rw [hs.handlers t]
      rfl
    · simp [hs.handlers t]
  storeValue c b h := by simp [hs.calls c] at h
  report c b h := by simp [hs.calls c] at h

variable [DecidableEq T] {s s' : State T C} {t : T} {c : C} {b : Block}
  {waiting : T → List Block} {queues : T → List Queued} {owner : Block → Owner T C}

/-- The events that `sigqueue` has accepted, after a step. -/
def State.queuedAfter (s : State T C) (queued : T → List Queued) : Op T C → T → List Queued
  | .report c _ =>
      let call := s.calls c
      Function.update queued call.pid
        (queued call.pid ++ [⟨call.signo, call.value, (s.sigList call.pid).length⟩])
  | _ => queued

/-- The blocks of `t` are no call's. -/
theorem Inv.not_call (hi : Inv s waiting owner)
    (hb : b ∈ waiting t ∨ blockOf (s.handlers t) = some b) (c : C) :
    (s.calls c).pc.block ≠ some b := by
  intro hblock
  have hcall := (hi.call c b).mp hblock
  rcases hb with hb | hb
  · rw [((hi.loop t).queue b).mp hb] at hcall
    cases hcall
  · rw [((hi.loop t).handler b).mp hb] at hcall
    cases hcall

theorem handleStep_accounts (hi : Inv s waiting owner) (ha : Accounts s waiting queues)
    (hs : s.handleStep t = some s') :
    Accounts s' (Function.update waiting t (taken (s.handlers t) (waiting t))) queues := by
  obtain ⟨pc, outer, hpcs, hs⟩ := handleStep_cases hs
  obtain ⟨hsingle, rfl⟩ := hi.handlers_eq hpcs
  have hframe := handlePc_frame hs
  have hevent := event_congr hframe.signo hframe.value
  refine ⟨?_, ?_, ?_⟩
  · intro u
    by_cases hut : u = t
    · subst hut
      obtain ⟨done, current, rest, hl⟩ := ha.ledger u
      rw [Function.update_self, hsingle]
      exact handlePc_ledger hi hsingle hl hs
    · obtain ⟨done, current, rest, hl⟩ := ha.ledger u
      rw [Function.update_of_ne hut]
      exact ⟨done, current, rest, hl.frame (hi.loop u).single (hframe.handlers u hut)
        (by rw [hframe.sigList]) (hframe.notified u hut) (fun x _ => by rw [hevent])⟩
  · rw [hframe.calls, hframe.signo]
    exact ha.storeValue
  · rw [hframe.calls, hevent]
    exact ha.report

variable [DecidableEq C]

theorem callStep_accounts (hi : Inv s waiting owner) (ha : Accounts s waiting queues)
    (hs : s.callStep c = some s') : Accounts s' waiting queues := by
  have hframe := callStep_frame hs
  obtain ⟨pc, hown⟩ := hframe.own
  -- the calls are busy with different blocks
  have hother : ∀ d ≠ c, ∀ b, (s.calls d).pc.block = some b → (s.calls c).pc.block ≠ some b := by
    intro d hdc b hd hc
    have hsame := ((hi.call d b).mp hd).symm.trans ((hi.call c b).mp hc)
    cases hsame
    exact hdc rfl
  refine ⟨?_, ?_, ?_⟩
  · intro t
    obtain ⟨done, current, rest, hl⟩ := ha.ledger t
    refine ⟨done, current, rest, hl.frame (hi.loop t).single (by rw [hframe.handlers])
      (by rw [hframe.sigList]) (by rw [hframe.notified]) ?_⟩
    intro b hb
    have hc := hi.not_call hb c
    rw [State.event, hframe.signo b hc, hframe.value b hc]
    rfl
  · intro d b hd
    by_cases hdc : d = c
    · subst hdc
      rw [hframe.storeValue b hd, hown]
    · rw [hframe.others d hdc] at hd ⊢
      rw [hframe.signo b (hother d hdc b (by rw [hd]; rfl))]
      exact ha.storeValue d b hd
  · intro d b hd
    by_cases hdc : d = c
    · subst hdc
      obtain ⟨hpc, hsigno, hvalue⟩ := hframe.report b hd
      rw [State.event, hsigno, hvalue, hown, ha.storeValue d b hpc]
    · rw [hframe.others d hdc] at hd ⊢
      have hc := hother d hdc b (by rw [hd]; rfl)
      rw [State.event, hframe.signo b hc, hframe.value b hc]
      exact ha.report d b hd

theorem sigeventReport_accounts {starts : Bool} (hi : Inv s waiting owner)
    (ha : Accounts s waiting queues) (hok : Orderly s (.report c starts))
    (hs : s.sigeventReport c starts = some s') :
    Accounts s' (s.waitingAfter waiting (.report c starts))
      (s.queuedAfter queues (.report c starts)) := by
  obtain ⟨b, hpc, hcase⟩ := sigeventReport_cases hs
  have hblock : (s.calls c).pc.block.toList = [b] := by
    rw [hpc]
    rfl
  have hcalls : s'.calls = Function.update s.calls c { s.calls c with pc := .returned (some 0) } ∧
      s'.signo = s.signo ∧ s'.value = s.value ∧ s'.sigList = s.sigList ∧
      s'.notified = s.notified := by
    rcases hcase with ⟨rfl, -⟩ | ⟨rfl, -⟩ <;> exact ⟨rfl, rfl, rfl, rfl, rfl⟩
  obtain ⟨hcalls, hsigno, hvalue, hentries, hlog⟩ := hcalls
  have hevent := event_congr hsigno hvalue
  have hkept : ∀ d ≠ c, s'.calls d = s.calls d := fun d hdc => by
    rw [hcalls, Function.update_of_ne hdc]
  have hreturned : (s'.calls c).pc = .returned (some 0) := by rw [hcalls, Function.update_self]
  refine ⟨?_, ?_, ?_⟩
  · intro t
    obtain ⟨done, current, rest, hl⟩ := ha.ledger t
    by_cases htp : t = (s.calls c).pid
    · subst htp
      simp only [State.waitingAfter, State.queuedAfter, Function.update_self, hblock]
      refine ⟨done, current, _, hl.report ?_ (by rw [hentries]) (by rw [hlog]) hsigno hvalue
        (ha.report c b hpc) rfl⟩
      rcases hcase with ⟨rfl, -⟩ | ⟨rfl, hstarts⟩
      · exact .inl rfl
      · have hnone : s.handlers (s.calls c).pid = [] := hok.1 hstarts
        refine .inr ⟨hnone, ?_⟩
        rw [setHandlers_self, hnone]
    · have hpcs : s'.handlers t = s.handlers t := by
        rcases hcase with ⟨rfl, -⟩ | ⟨rfl, -⟩
        · rfl
        · exact setHandlers_of_ne _ htp _
      simp only [State.waitingAfter, State.queuedAfter, Function.update_of_ne htp]
      exact ⟨done, current, rest, hl.frame (hi.loop t).single hpcs (by rw [hentries])
        (by rw [hlog]) (fun x _ => by rw [hevent])⟩
  · intro d x hd
    by_cases hdc : d = c
    · subst hdc
      rw [hreturned] at hd
      cases hd
    · rw [hkept d hdc] at hd ⊢
      rw [hsigno]
      exact ha.storeValue d x hd
  · intro d x hd
    by_cases hdc : d = c
    · subst hdc
      rw [hreturned] at hd
      cases hd
    · rw [hkept d hdc] at hd ⊢
      rw [hevent]
      exact ha.report d x hd

theorem step_accounts {op : Op T C} (hi : Inv s waiting owner) (ha : Accounts s waiting queues)
    (hok : Orderly s op) (hs : step s op = some s') :
    Accounts s' (s.waitingAfter waiting op) (s.queuedAfter queues op) := by
  cases op with
  | sigqueue c pid signo value =>
    change s.sigqueue c pid signo value = some s' at hs
    unfold State.sigqueue at hs
    split at hs
    · cases hs
      refine ⟨?_, ?_, ?_⟩
      · intro t
        obtain ⟨done, current, rest, hl⟩ := ha.ledger t
        exact ⟨done, current, rest, hl.frame (hi.loop t).single rfl rfl rfl fun _ _ => rfl⟩
      · intro d b hd
        by_cases hdc : d = c
        · subst hdc
          simp at hd
        · simp only [Function.update_of_ne hdc] at hd ⊢
          exact ha.storeValue d b hd
      · intro d b hd
        by_cases hdc : d = c
        · subst hdc
          simp at hd
        · simp only [Function.update_of_ne hdc] at hd ⊢
          exact ha.report d b hd
    · cases hs
  | call c => exact callStep_accounts hi ha hs
  | report c starts => exact sigeventReport_accounts hi ha hok hs
  | handle t => exact handleStep_accounts hi ha hs
  | signal t signum handler =>
    cases hs
    refine ⟨?_, ha.storeValue, ha.report⟩
    intro u
    obtain ⟨done, current, rest, hl⟩ := ha.ledger u
    by_cases hut : u = t
    · subst hut
      exact ⟨done, current, rest, hl.signal signum handler⟩
    · exact ⟨done, current, rest, hl.frame (hi.loop u).single rfl (Function.update_of_ne hut ..)
        rfl fun _ _ => rfl⟩

end PosixRtos.Signal
