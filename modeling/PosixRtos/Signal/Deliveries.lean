import PosixRtos.Signal.Loops

/-! What the handlers have been called with. The events that `sigqueue` has
accepted for a thread are, in this order, those that its handler loops are done
with, the one whose handlers are being called, and those that still wait. -/
namespace PosixRtos.Signal

open PosixRtos.Library.Rings PosixRtos.Library.Runs PosixRtos.Kernel.IntrusiveList

/-- An event that `sigqueue` has accepted, when its thread had so many handlers
registered. -/
structure Queued where
  signo : Int
  value : Int
  registered : Nat
deriving DecidableEq

/-- The calls that a walk over these entries of `sig_list` makes for an event. -/
def deliveries (entries : List Registration) (event : Queued) : List Notification :=
  (entries.filter fun entry => entry.signum = event.signo).map fun entry =>
    ⟨entry.handler, event.value⟩

/-- The calls for several events, each with the number of entries walked over. -/
def walked (entries : List Registration) (events : List (Queued × Nat)) : List Notification :=
  events.flatMap fun p => deliveries (entries.take p.2) p.1

variable {T C : Type} {s s' : State T C} {t u : T} {c : C} {b : Block} {pcs : List (HandlerPc T)}
  {xs : List Block} {entries more : List Registration} {queued : List Queued}
  {done events : List (Queued × Nat)} {current : Option (Queued × Nat)} {rest : List Queued}

theorem walked_append (events events' : List (Queued × Nat)) :
    walked entries (events ++ events') = walked entries events ++ walked entries events' :=
  List.flatMap_append

/-- Handlers that are registered later do not change what has been called. -/
theorem walked_more (hbounded : ∀ p ∈ events, p.2 ≤ entries.length) :
    walked (entries ++ more) events = walked entries events := by
  induction events with
  | nil => rfl
  | cons p rest ih =>
    have hp := hbounded p (List.mem_cons_self ..)
    have hrest := ih fun q hq => hbounded q (List.mem_cons_of_mem _ hq)
    simp only [walked, List.flatMap_cons] at hrest ⊢
    rw [List.take_append_of_le_length hp, hrest]

/-- One entry further on a walk. -/
theorem deliveries_succ {i : Nat} {entry : Registration} {event : Queued}
    (hentry : entries[i]? = some entry) :
    deliveries (entries.take (i + 1)) event = deliveries (entries.take i) event ++
      if entry.signum = event.signo then [⟨entry.handler, event.value⟩] else [] := by
  obtain ⟨hlt, hget⟩ := List.getElem?_eq_some_iff.mp hentry
  rw [List.take_succ_eq_append_getElem hlt, hget, deliveries, List.filter_append, List.map_append]
  congr 1
  by_cases hmatch : entry.signum = event.signo <;> simp [hmatch]

def Queued.event (q : Queued) : Int × Int := (q.signo, q.value)

/-- The event that a block holds. -/
def State.event (s : State T C) (b : Block) : Int × Int := (s.signo b, s.value b)

theorem event_congr (hsigno : s'.signo = s.signo) (hvalue : s'.value = s.value) :
    s'.event = s.event := by
  funext b
  rw [State.event, hsigno, hvalue]
  rfl

/-- The walk over `sig_list` that a loop is in: its block and its position. -/
def HandlerPc.walk : HandlerPc T → Option (Block × Nat)
  | .compare sigevent sig | .notify sigevent sig => some (sigevent, sig)
  | _ => none

def walkOf (pcs : List (HandlerPc T)) : Option (Block × Nat) := pcs.head?.bind HandlerPc.walk

theorem blockOf_of_walkOf {i : Nat} (h : walkOf pcs = some (b, i)) : blockOf pcs = some b := by
  obtain ⟨pc, hpc, hwalk⟩ := Option.bind_eq_some_iff.mp h
  refine Option.bind_eq_some_iff.mpr ⟨pc, hpc, ?_⟩
  cases pc <;> simp_all [HandlerPc.walk, HandlerPc.block]

/-- The account of the events that `t` has been sent: `done`, the one in hand
with the entries walked over so far, and the `rest`, which waits in `xs`. -/
structure Ledger (s : State T C) (xs : List Block) (t : T) (queued : List Queued)
    (done : List (Queued × Nat)) (current : Option (Queued × Nat)) (rest : List Queued) :
    Prop where
  order : queued = (done ++ current.toList).map Prod.fst ++ rest
  waiting : xs.map s.event = rest.map Queued.event
  log : s.notified t = walked (s.sigList t) (done ++ current.toList)
  complete : ∀ p ∈ done, p.1.registered ≤ p.2
  bounded : ∀ p ∈ done ++ current.toList, p.2 ≤ (s.sigList t).length
  registered : ∀ q ∈ queued, q.registered ≤ (s.sigList t).length
  walk : current.map Prod.snd = (walkOf (s.handlers t)).map Prod.snd
  inHand : ∀ p ∈ current, ∀ w ∈ walkOf (s.handlers t), s.event w.1 = p.1.event
  called : ∀ b i, .notify b i ∈ s.handlers t →
    ∃ entry, (s.sigList t)[i]? = some entry ∧ entry.signum = s.signo b

theorem mem_blockOf_of_notify {i : Nat} (hsingle : pcs.length ≤ 1) (h : .notify b i ∈ pcs) :
    blockOf pcs = some b := by
  match pcs, hsingle with
  | [pc], _ =>
    rw [← List.mem_singleton.mp h]
    rfl

/-- A step that leaves `t` and the events of its blocks alone. -/
theorem Ledger.frame (hl : Ledger s xs t queued done current rest)
    (hsingle : (s.handlers t).length ≤ 1)
    (hpcs : s'.handlers t = s.handlers t) (hentries : s'.sigList t = s.sigList t)
    (hlog : s'.notified t = s.notified t)
    (hevent : ∀ b, b ∈ xs ∨ blockOf (s.handlers t) = some b → s'.event b = s.event b) :
    Ledger s' xs t queued done current rest where
  order := hl.order
  waiting := by
    rw [← hl.waiting]
    exact List.map_congr_left fun b hb => hevent b (.inl hb)
  log := by rw [hlog, hentries, hl.log]
  complete := hl.complete
  bounded := by
    rw [hentries]
    exact hl.bounded
  registered := by
    rw [hentries]
    exact hl.registered
  walk := by rw [hpcs, hl.walk]
  inHand p hp w hw := by
    rw [hpcs] at hw
    rw [hevent w.1 (.inr (blockOf_of_walkOf hw))]
    exact hl.inHand p hp w hw
  called b i h := by
    rw [hpcs] at h
    have hsame := hevent b (.inr (mem_blockOf_of_notify hsingle h))
    obtain ⟨entry, hentry, hsigno⟩ := hl.called b i h
    refine ⟨entry, by rw [hentries, hentry], ?_⟩
    rw [hsigno]
    exact (Prod.mk.inj hsame).1.symm

/-- `__sigevent_report` puts one more event into the list of `t`, and may start
its loop. -/
theorem Ledger.report (hl : Ledger s xs t queued done current rest) {event : Queued}
    (hpcs : s'.handlers t = s.handlers t ∨ (s.handlers t = [] ∧ s'.handlers t = [.loadHead]))
    (hentries : s'.sigList t = s.sigList t) (hlog : s'.notified t = s.notified t)
    (hsigno : s'.signo = s.signo) (hvalue : s'.value = s.value)
    (hcarries : s.event b = event.event) (hregistered : event.registered = (s.sigList t).length) :
    Ledger s' (xs ++ [b]) t (queued ++ [event]) done current (rest ++ [event]) := by
  have hevent := event_congr hsigno hvalue
  have hwalk : walkOf (s'.handlers t) = walkOf (s.handlers t) := by
    rcases hpcs with hpcs | ⟨hnone, hstart⟩
    · rw [hpcs]
    · rw [hnone, hstart]
      rfl
  refine ⟨?_, ?_, ?_, hl.complete, ?_, ?_, ?_, ?_, ?_⟩
  · rw [hl.order, List.append_assoc]
  · rw [hevent, List.map_append, List.map_append, hl.waiting, List.map_singleton,
      List.map_singleton, hcarries]
  · rw [hlog, hentries, hl.log]
  · rw [hentries]
    exact hl.bounded
  · rw [hentries]
    intro q hq
    rcases List.mem_append.mp hq with hq | hq
    · exact hl.registered q hq
    · rw [List.mem_singleton.mp hq, hregistered]
  · rw [hwalk, hl.walk]
  · rw [hwalk, hevent]
    exact hl.inHand
  · intro x i h
    rw [hentries, hsigno]
    rcases hpcs with hpcs | ⟨-, hstart⟩
    · rw [hpcs] at h
      exact hl.called x i h
    · rw [hstart] at h
      simp at h

/-- A statement of the loop that calls no handler and stays on its walk, if any. -/
theorem Ledger.goto (hl : Ledger s xs t queued done current rest)
    (hentries : s'.sigList = s.sigList) (hlog : s'.notified t = s.notified t)
    (hsigno : s'.signo = s.signo) (hvalue : s'.value = s.value)
    (hwalk : walkOf (s'.handlers t) = walkOf (s.handlers t))
    (hcalled : ∀ b i, .notify b i ∈ s'.handlers t →
      ∃ entry, (s.sigList t)[i]? = some entry ∧ entry.signum = s.signo b) :
    Ledger s' xs t queued done current rest := by
  have hevent := event_congr hsigno hvalue
  refine ⟨hl.order, ?_, ?_, hl.complete, ?_, ?_, ?_, ?_, ?_⟩
  · rw [hevent, hl.waiting]
  · rw [hlog, hentries, hl.log]
  · rw [hentries]
    exact hl.bounded
  · rw [hentries]
    exact hl.registered
  · rw [hwalk, hl.walk]
  · rw [hwalk, hevent]
    exact hl.inHand
  · rw [hentries, hsigno]
    exact hcalled

/-- The event whose walk the loop is in. -/
theorem Ledger.current_eq (hl : Ledger s xs t queued done current rest) {i : Nat}
    (hwalk : walkOf (s.handlers t) = some (b, i)) :
    ∃ q, current = some (q, i) ∧ s.event b = q.event := by
  have hpos := hl.walk
  rw [hwalk] at hpos
  obtain ⟨⟨q, j⟩, hcurrent, hj⟩ := Option.map_eq_some_iff.mp hpos
  cases hj
  exact ⟨q, hcurrent, hl.inHand (q, i) hcurrent (b, i) hwalk⟩

theorem Ledger.current_eq_none (hl : Ledger s xs t queued done current rest)
    (hwalk : walkOf (s.handlers t) = none) : current = none := by
  have hpos := hl.walk
  rw [hwalk] at hpos
  exact Option.map_eq_none_iff.mp hpos

/-- One entry further on the walk, with the calls that this adds to the log. -/
theorem Ledger.advance (hl : Ledger s xs t queued done current rest) {i : Nat}
    {entry : Registration} (hentry : (s.sigList t)[i]? = some entry)
    (hwalk : walkOf (s.handlers t) = some (b, i)) (calls : List Notification)
    (hcalls : calls = if entry.signum = s.signo b then [⟨entry.handler, s.value b⟩] else [])
    (hpcs : s'.handlers t = [.compare b (i + 1)]) (hentries : s'.sigList = s.sigList)
    (hlog : s'.notified t = s.notified t ++ calls)
    (hsigno : s'.signo = s.signo) (hvalue : s'.value = s.value) :
    ∃ current', Ledger s' xs t queued done current' rest := by
  obtain ⟨q, rfl, hq⟩ := hl.current_eq hwalk
  have hlt := (List.getElem?_eq_some_iff.mp hentry).1
  have hevent := event_congr hsigno hvalue
  obtain ⟨hqsigno, hqvalue⟩ := Prod.mk.inj hq
  refine ⟨some (q, i + 1), ?_, ?_, ?_, hl.complete, ?_, ?_, ?_, ?_, ?_⟩
  · rw [hl.order]
    simp
  · rw [hevent, hl.waiting]
  · have hold := hl.log
    rw [Option.toList_some, walked_append] at hold
    have hnew : walked (s.sigList t) [(q, i + 1)] = walked (s.sigList t) [(q, i)] ++ calls := by
      simp only [walked, List.flatMap_cons, List.flatMap_nil, List.append_nil]
      rw [deliveries_succ hentry, hcalls, hqsigno, hqvalue]
    rw [hlog, hentries, Option.toList_some, walked_append, hnew, hold, List.append_assoc]
  · rw [hentries]
    intro p hp
    rcases List.mem_append.mp hp with hp | hp
    · exact hl.bounded p (List.mem_append_left _ hp)
    · rw [List.mem_singleton.mp hp]
      exact hlt
  · rw [hentries]
    exact hl.registered
  · rw [hpcs]
    rfl
  · intro p hp w hw
    cases hp
    rw [hpcs] at hw
    cases hw
    rw [hevent, hq]
  · intro x j h
    rw [hpcs] at h
    simp at h

variable [DecidableEq T]

/-- `signal` registers one more handler of `t`. -/
theorem Ledger.signal (hl : Ledger s xs t queued done current rest) (signum : Int)
    (handler : Nat) : Ledger (s.signal t signum handler) xs t queued done current rest := by
  have hentries : (s.signal t signum handler).sigList t = s.sigList t ++ [⟨signum, handler⟩] :=
    Function.update_self ..
  have hlength : (s.sigList t).length ≤ ((s.signal t signum handler).sigList t).length := by
    rw [hentries, List.length_append]
    omega
  refine ⟨hl.order, hl.waiting, ?_, hl.complete, ?_, ?_, hl.walk, hl.inHand, ?_⟩
  · rw [hentries, walked_more hl.bounded]
    exact hl.log
  · intro p hp
    exact (hl.bounded p hp).trans hlength
  · intro q hq
    exact (hl.registered q hq).trans hlength
  · intro b i h
    obtain ⟨entry, hentry, hsigno⟩ := hl.called b i h
    refine ⟨entry, ?_, hsigno⟩
    rw [hentries, List.getElem?_append_left (List.getElem?_eq_some_iff.mp hentry).1]
    exact hentry

/-- The loop takes the first waiting event in hand. -/
theorem Ledger.take (hl : Ledger s (b :: xs) t queued done current rest)
    (hpcs : s.handlers t = [.test (.node b)]) :
    ∃ q rest', rest = q :: rest' ∧
      Ledger (s.setHandlers t [.compare b 0]) xs t queued done (some (q, 0)) rest' := by
  cases hl.current_eq_none (by rw [hpcs]; rfl)
  have hwaiting := hl.waiting
  cases rest with
  | nil => cases hwaiting
  | cons q rest' =>
    rw [List.map_cons, List.map_cons] at hwaiting
    obtain ⟨hevent, hrest⟩ := List.cons.inj hwaiting
    refine ⟨q, rest', rfl, ?_, hrest, ?_, hl.complete, ?_, hl.registered, ?_, ?_, by simp⟩
    · rw [hl.order]
      simp
    · have hlog := hl.log
      rw [Option.toList_none, List.append_nil] at hlog
      change s.notified t = walked (s.sigList t) _
      rw [walked_append, hlog]
      simp [walked, deliveries]
    · intro p hp
      rcases List.mem_append.mp hp with hp | hp
      · exact hl.bounded p (List.mem_append_left _ hp)
      · rw [List.mem_singleton.mp hp]
        exact Nat.zero_le _
    · rw [setHandlers_self]
      rfl
    · intro p hp w hw
      cases hp
      rw [setHandlers_self] at hw
      cases hw
      exact hevent

/-- The walk is at the end of `sig_list`: the event is done with. -/
theorem Ledger.finish (hl : Ledger s xs t queued done current rest) {i : Nat}
    (hpcs : s.handlers t = [.compare b i]) (hend : (s.sigList t)[i]? = none) :
    ∃ p, Ledger (s.setHandlers t [.free b]) xs t queued (done ++ [p]) none rest := by
  obtain ⟨q, rfl, hevent⟩ := hl.current_eq (by rw [hpcs]; rfl)
  have hle := List.getElem?_eq_none_iff.mp hend
  have hq : q ∈ queued := by
    rw [hl.order]
    simp
  refine ⟨(q, i), ?_, hl.waiting, ?_, ?_, ?_, hl.registered, ?_, by simp, by simp⟩
  · rw [hl.order]
    simp
  · have hlog := hl.log
    change s.notified t = walked (s.sigList t) _
    simpa using hlog
  · intro p hp
    rcases List.mem_append.mp hp with hp | hp
    · exact hl.complete p hp
    · rw [List.mem_singleton.mp hp]
      exact (hl.registered q hq).trans hle
  · intro p hp
    exact hl.bounded p (by simpa using hp)
  · rw [setHandlers_self]
    rfl

variable {waiting : T → List Block} {owner : Block → Owner T C} {pc : HandlerPc T}

/-- Every statement of the loop of `t` keeps the account of `t`. -/
theorem handlePc_ledger (hi : Inv s waiting owner) (hpcs : s.handlers t = [pc])
    (hl : Ledger s (waiting t) t queued done current rest) (hs : s.handlePc t [] pc = some s') :
    ∃ done' current' rest', Ledger s' (taken [pc] (waiting t)) t queued done' current' rest' := by
  have hframe := handlePc_frame hs
  have hwalk : walkOf (s.handlers t) = pc.walk := by
    rw [hpcs]
    rfl
  cases pc with
  | loadHead | free | unlinkNext | unlinkPrev | exit =>
    cases hs
    exact ⟨done, current, rest, hl.goto rfl rfl rfl rfl (by rw [hwalk, setHandlers_self]; rfl)
      (by simp)⟩
  | test pos =>
    cases pos with
    | head u =>
      rw [State.handlePc] at hs
      split at hs
      · cases hs
        exact ⟨done, current, rest, hl.goto rfl rfl rfl rfl (by rw [hwalk, setHandlers_self]; rfl)
          (by simp)⟩
      · cases hs
    | node b =>
      cases hs
      obtain ⟨tail, htail⟩ := List.head?_eq_some_iff.mp
        ((hi.loop t).test b (by rw [hpcs]; exact List.mem_singleton.mpr rfl))
      rw [htail] at hl
      obtain ⟨q, rest', -, hl'⟩ := hl.take hpcs
      rw [taken, htail]
      exact ⟨done, _, rest', hl'⟩
  | compare b i =>
    rw [State.handlePc] at hs
    split at hs
    · next hend =>
      cases hs
      obtain ⟨p, hl'⟩ := hl.finish hpcs hend
      exact ⟨_, none, rest, hl'⟩
    · next entry hentry =>
      split at hs
      · next hmatch =>
        cases hs
        refine ⟨done, current, rest, hl.goto rfl rfl rfl rfl
          (by rw [hwalk, setHandlers_self]; rfl) ?_⟩
        intro x j h
        rw [setHandlers_self] at h
        cases List.mem_singleton.mp h
        exact ⟨entry, hentry, hmatch⟩
      · next hmatch =>
        cases hs
        obtain ⟨current', hl'⟩ := hl.advance hentry hwalk [] (by rw [if_neg hmatch])
          (setHandlers_self ..) rfl (List.append_nil _).symm rfl rfl
        exact ⟨done, current', rest, hl'⟩
  | notify b i =>
    obtain ⟨entry, hentry, hs⟩ := Option.bind_eq_some_iff.mp hs
    have hnotify : .notify b i ∈ s.handlers t := by
      rw [hpcs]
      exact List.mem_singleton.mpr rfl
    obtain ⟨entry', hentry', hmatch⟩ := hl.called b i hnotify
    rw [hentry] at hentry'
    cases hentry'
    have hl' : ∃ current', Ledger s' (waiting t) t queued done current' rest := by
      cases hs
      exact hl.advance hentry hwalk _ (by rw [if_pos hmatch]) (setHandlers_self ..) rfl
        (Function.update_self ..) rfl rfl
    obtain ⟨current', hl'⟩ := hl'
    exact ⟨done, current', rest, hl'⟩

end PosixRtos.Signal
