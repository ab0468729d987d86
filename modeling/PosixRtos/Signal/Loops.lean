import PosixRtos.Signal.Owners

/-! The handler loops. A loop takes the first block of its list in hand, clears
its flag, and takes it out of the list in two stores; only then is the block
free. Each statement changes the list of its own thread and nothing else. -/
namespace PosixRtos.Signal

open PosixRtos.Library.Rings PosixRtos.Library.Runs PosixRtos.Kernel.IntrusiveList

variable {T C : Type} [DecidableEq T] {pc pc' : HandlerPc T} {pcs : List (HandlerPc T)} {b : Block}
  {s s' : State T C} {t u : T} {c : C} {l : Links (Cell T Block)} {entries : List Registration}
  {xs xs' : List Block} {waiting : T → List Block} {owner owner' : Block → Owner T C}

/-! The statements of `__sigevent_handle`, as its own list sees them. -/

/-- The loop goes on with the same block, or with none as before. -/
theorem Loop.goto (hl : Loop l entries [pc] xs owner t) (hblock : pc'.block = pc.block)
    (hfront : pc'.front = pc.front) (hleaving : pc'.leaving = pc.leaving)
    (htest : ∀ b, pc' = .test (.node b) → xs.head? = some b)
    (hhome : ∀ u, pc' = .test (.head u) → u = t)
    (hnotify : ∀ b i, pc' = .notify b i → i < entries.length) :
    Loop l entries [pc'] xs owner t where
  single := le_rfl
  list := by
    have hlist := hl.list
    simpa [linkedOf, frontOf, leavingOf, hfront, hleaving] using hlist
  queue := hl.queue
  handler b := by
    rw [← hl.handler b]
    simp [blockOf, hblock]
  test b h := htest b (List.mem_singleton.mp h).symm
  home u h := hhome u (List.mem_singleton.mp h).symm
  notify b i h := hnotify b i (List.mem_singleton.mp h).symm

/-- The loop takes the first waiting block. -/
theorem Loop.take (hl : Loop l entries [.test (.node b)] xs owner t) :
    Loop l entries [.compare b 0] xs.tail (Function.update owner b (.handler t)) t := by
  obtain ⟨rest, rfl⟩ := List.head?_eq_some_iff.mp (hl.test b (List.mem_singleton.mpr rfl))
  have hlist : Leaving l t none (b :: rest) := hl.list
  have hb := (List.nodup_cons.mp hlist.nodup).1
  refine ⟨le_rfl, hlist, ?_, ?_, by simp, by simp, by simp⟩
  · intro x
    have hx := hl.queue x
    rw [Function.update_apply]
    split
    · next hxb => simpa [hxb] using hb
    · next hxb => simpa [hxb] using hx
  · intro x
    have hx : owner x ≠ .handler t := fun h => by
      have hnone := (hl.handler x).mpr h
      cases hnone
    change some b = some x ↔ _
    rw [Function.update_apply, Option.some.injEq]
    grind

/-- The first store of the removal. -/
theorem Loop.unlinkNext (hl : Loop l entries [.unlinkNext b] xs owner t) :
    Loop (unlinkNext l (.node b)) entries [.unlinkPrev b] xs owner t where
  single := le_rfl
  list := by
    have hlist : Leaving l t none (b :: xs) := hl.list
    exact hlist.unlinkNext
  queue := hl.queue
  handler := hl.handler
  test b h := by simp at h
  home u h := by simp at h
  notify b i h := by simp at h

/-- The second store of the removal gives the block up. -/
theorem Loop.unlinkPrev (hl : Loop l entries [.unlinkPrev b] xs owner t) :
    Loop (unlinkPrev l (.node b)) entries [.loadHead] xs (Function.update owner b .free) t := by
  have hlist : Leaving l t (some b) xs := hl.list
  have howner : owner b = .handler t := (hl.handler b).mp rfl
  refine ⟨le_rfl, hlist.unlinkPrev, ?_, ?_, by simp, by simp, by simp⟩
  · intro x
    have hx := hl.queue x
    rw [Function.update_apply]
    grind
  · intro x
    have hx : owner x = .handler t → b = x := fun h => Option.some.inj ((hl.handler x).mpr h)
    change none = some x ↔ _
    rw [Function.update_apply]
    grind

theorem Loop.exit (hl : Loop l entries [.exit] xs owner t) : Loop l entries [] xs owner t :=
  ⟨Nat.zero_le 1, hl.list, hl.queue, hl.handler, by simp, by simp, by simp⟩

theorem Loop.start (hl : Loop l entries [] xs owner t) : Loop l entries [.loadHead] xs owner t :=
  ⟨le_rfl, hl.list, hl.queue, hl.handler, by simp, by simp, by simp⟩

/-- A block is inserted at the tail. -/
theorem Loop.insert (hl : Loop l entries pcs xs owner t) (howner : owner b = .call c)
    (hlast : ∀ b ∈ leavingOf pcs, l.prev (.head t) ≠ .node b) :
    Loop (listInsertTail l (.head t) (.node b)) entries pcs (xs ++ [b])
      (Function.update owner b (.queue t)) t where
  single := hl.single
  list := by
    have hlinked : b ∉ linkedOf pcs xs := fun hb => by
      have := hl.owner_of_linked hb
      grind
    have hleaving : b ∉ leavingOf pcs := fun hb => by
      have := (hl.handler b).mp (blockOf_of_leavingOf hb)
      grind
    have hinserted := hl.list.insertTail hlinked hleaving hlast
    rw [linkedOf, List.append_assoc] at hinserted
    exact hinserted
  queue x := by
    have hx := hl.queue x
    rw [Function.update_apply, List.mem_append, List.mem_singleton]
    grind
  handler x := by
    have hx := hl.handler x
    rw [Function.update_apply]
    grind
  test x h := by
    rw [List.head?_append, hl.test x h]
    rfl
  home := hl.home
  notify := hl.notify

/-! The statements, as the whole machine sees them. -/

/-- What no statement of the loop of `t` touches. -/
structure HandleFrame (s s' : State T C) (t : T) : Prop where
  calls : s'.calls = s.calls
  signo : s'.signo = s.signo
  value : s'.value = s.value
  sigList : s'.sigList = s.sigList
  handlers : ∀ u ≠ t, s'.handlers u = s.handlers u
  notified : ∀ u ≠ t, s'.notified u = s.notified u

theorem handleFrame_setHandlers (flag : Block → Bool) (l : Links (Cell T Block))
    (pcs : List (HandlerPc T)) :
    HandleFrame s ({ s with flag := flag, links := l }.setHandlers t pcs) t where
  calls := rfl
  signo := rfl
  value := rfl
  sigList := rfl
  handlers _ hut := setHandlers_of_ne _ hut _
  notified _ _ := rfl

theorem handlePc_frame {outer : List (HandlerPc T)} (hs : s.handlePc t outer pc = some s') :
    HandleFrame s s' t := by
  have hgoto := handleFrame_setHandlers (s := s) (t := t)
  cases pc with
  | test pos =>
    cases pos with
    | head v =>
      rw [State.handlePc] at hs
      split at hs
      · cases hs
        exact hgoto s.flag s.links _
      · cases hs
    | node b =>
      cases hs
      exact hgoto s.flag s.links _
  | compare b i =>
    rw [State.handlePc] at hs
    split at hs
    · cases hs
      exact hgoto s.flag s.links _
    · split at hs <;> cases hs <;> exact hgoto s.flag s.links _
  | notify b i =>
    obtain ⟨entry, -, hs⟩ := Option.bind_eq_some_iff.mp hs
    cases hs
    exact ⟨rfl, rfl, rfl, rfl, fun u hut => setHandlers_of_ne _ hut _,
      fun u hut => Function.update_of_ne hut ..⟩
  | free b =>
    cases hs
    exact hgoto _ s.links _
  | unlinkNext b | unlinkPrev b =>
    cases hs
    exact hgoto s.flag _ _
  | loadHead | exit =>
    cases hs
    exact hgoto s.flag s.links _

theorem handleStep_cases (hs : s.handleStep t = some s') :
    ∃ pc outer, s.handlers t = pc :: outer ∧ s.handlePc t outer pc = some s' := by
  unfold State.handleStep at hs
  split at hs
  · cases hs
  · next pc outer hpcs => exact ⟨pc, outer, hpcs, hs⟩

theorem Inv.handlers_eq (hi : Inv s waiting owner) (hpcs : s.handlers t = pc :: pcs) :
    s.handlers t = [pc] ∧ pcs = [] := by
  have hsingle := (hi.loop t).single
  rw [hpcs, List.length_cons] at hsingle
  have hnil : pcs = [] := List.eq_nil_of_length_eq_zero (by omega)
  rw [hpcs, hnil]
  exact ⟨rfl, rfl⟩

/-- A step of the loop of `t` concerns its list, and the blocks that are its own. -/
theorem Inv.handled (hi : Inv s waiting owner) (hcalls : s'.calls = s.calls)
    (hentries : s'.sigList = s.sigList) (hother : ∀ u ≠ t, s'.handlers u = s.handlers u)
    (hloop : Loop s'.links (s'.sigList t) (s'.handlers t) xs' owner' t)
    (howner : ∀ b, owner' b = owner b ∨
      ((owner b = .queue t ∨ owner b = .handler t) ∧ (owner' b = .free ∨ owner' b = .handler t)))
    (hnext : ∀ x ∉ regionOf t (s.handlers t) (waiting t), s'.links.next x = s.links.next x)
    (hprev : ∀ x ∉ regionOf t (s.handlers t) (waiting t), s'.links.prev x = s.links.prev x)
    (hflag : ∀ b, owner b = .queue t ∨ owner b = .handler t → s'.flag b = s'.flagOf (owner' b))
    (hsame : ∀ b, owner b ≠ .handler t → s'.flag b = s.flag b) :
    Inv s' (Function.update waiting t xs') owner' where
  loop u := by
    by_cases hut : u = t
    · subst hut
      rw [Function.update_self]
      exact hloop
    · rw [Function.update_of_ne hut, hother u hut, hentries]
      refine hi.loop_of_ne hut ?_ (fun x hx _ => hnext x hx) (fun x hx _ => hprev x hx)
      intro b
      have hb := howner b
      grind
  call d b := by
    have hb := howner b
    rw [hcalls, hi.call d b]
    grind
  flag b := by
    by_cases hmine : owner b = .queue t ∨ owner b = .handler t
    · exact hflag b hmine
    · obtain ⟨hqueue, hhandler⟩ := not_or.mp hmine
      have hkept : owner' b = owner b := (howner b).resolve_right fun h => hmine h.1
      rw [hsame b hhandler, hi.flag b, hkept]
      cases howner' : owner b with
      | handler u =>
        have hut : u ≠ t := by
          rintro rfl
          exact hhandler howner'
        simp only [State.flagOf, hother u hut]
      | call d => simp only [State.flagOf, hcalls]
      | _ => rfl

/-- The waiting blocks of `t` after the next statement of its loop. -/
def taken (pcs : List (HandlerPc T)) (xs : List Block) : List Block :=
  match pcs with
  | .test (.node _) :: _ => xs.tail
  | _ => xs

/-- A statement that stays with its block and touches neither flags nor links. -/
theorem Inv.goto (hi : Inv s waiting owner) (hpcs : s.handlers t = [pc])
    (hlinks : s'.links = s.links) (hflags : s'.flag = s.flag) (hcalls : s'.calls = s.calls)
    (hentries : s'.sigList = s.sigList)
    (hhandlers : s'.handlers = Function.update s.handlers t pcs)
    (hreleased : releasedOf pcs = pc.released)
    (hloop : Loop s.links (s.sigList t) pcs (waiting t) owner t) :
    Inv s' (Function.update waiting t (waiting t)) owner := by
  have hself : s'.handlers t = pcs := by rw [hhandlers, Function.update_self]
  refine hi.handled hcalls hentries ?_ ?_ (fun b => .inl rfl) ?_ ?_ ?_ ?_
  · intro u hut
    rw [hhandlers, Function.update_of_ne hut]
  · rw [hself, hlinks, hentries]
    exact hloop
  · simp [hlinks]
  · simp [hlinks]
  · intro b hb
    rw [hflags, hi.flag b]
    rcases hb with hb | hb
    · rw [hb]
      rfl
    · simp only [hb, State.flagOf, hself, hreleased, hpcs]
      rfl
  · intro b _
    rw [hflags]

/-- The loop takes the first waiting block in hand. -/
theorem Inv.take (hi : Inv s waiting owner) (hpcs : s.handlers t = [.test (.node b)]) :
    Inv (s.setHandlers t [.compare b 0]) (Function.update waiting t (waiting t).tail)
      (Function.update owner b (.handler t)) := by
  have hloop := hi.loop t
  rw [hpcs] at hloop
  have hqueued : owner b = .queue t :=
    (hloop.queue b).mp (List.mem_of_head? (hloop.test b (List.mem_singleton.mpr rfl)))
  have hnone : ∀ x, owner x ≠ .handler t := fun x h => by
    have hblock := (hloop.handler x).mpr h
    cases hblock
  refine hi.handled rfl rfl (fun u hut => setHandlers_of_ne s hut _) ?_ ?_ (fun _ _ => rfl)
    (fun _ _ => rfl) ?_ (fun _ _ => rfl)
  · rw [setHandlers_self]
    exact hloop.take
  · intro x
    rw [Function.update_apply]
    grind
  · intro x hx
    have hflag := hi.flag x
    rw [hx.resolve_right (hnone x)] at hflag
    change s.flag x = _
    rw [hflag, Function.update_apply]
    split
    · simp [State.flagOf, releasedOf, HandlerPc.released]
    · rw [hx.resolve_right (hnone x)]
      rfl

/-- The block in hand is the only one of the loop. -/
theorem Inv.eq_block (hi : Inv s waiting owner) (hpcs : s.handlers t = [pc])
    (hblock : pc.block = some b) {x : Block} (hx : owner x = .handler t) : x = b := by
  have hloop := (hi.loop t).handler x
  rw [hpcs] at hloop
  have hsome : pc.block = some x := hloop.mpr hx
  rw [hblock] at hsome
  exact (Option.some.inj hsome).symm

/-- `__sigevent_free`. -/
theorem Inv.free (hi : Inv s waiting owner) (hpcs : s.handlers t = [.free b]) :
    Inv ({ s with flag := Function.update s.flag b false }.setHandlers t [.unlinkNext b])
      (Function.update waiting t (waiting t)) owner := by
  have hloop := hi.loop t
  rw [hpcs] at hloop
  have howner : owner b = .handler t := (hloop.handler b).mp rfl
  refine hi.handled rfl rfl (fun u hut => setHandlers_of_ne _ hut _) ?_ (fun _ => .inl rfl)
    (fun _ _ => rfl) (fun _ _ => rfl) ?_ ?_
  · rw [setHandlers_self]
    exact hloop.goto rfl rfl rfl (by simp) (by simp) (by simp)
  · intro x hx
    change Function.update s.flag b false x = _
    rcases hx with hx | hx
    · have hxb : x ≠ b := by
        rintro rfl
        rw [howner] at hx
        cases hx
      rw [Function.update_of_ne hxb, hi.flag x, hx]
      rfl
    · rw [hi.eq_block hpcs rfl hx, Function.update_self, howner]
      simp [State.flagOf, releasedOf, HandlerPc.released]
  · intro x hx
    have hxb : x ≠ b := by
      rintro rfl
      exact hx howner
    exact Function.update_of_ne hxb ..

/-- The first store of `list_remove_node`, in place. -/
theorem Inv.unlinkNext (hi : Inv s waiting owner) (hpcs : s.handlers t = [.unlinkNext b]) :
    Inv ({ s with links := unlinkNext s.links (.node b) }.setHandlers t [.unlinkPrev b])
      (Function.update waiting t (waiting t)) owner := by
  have hloop := hi.loop t
  rw [hpcs] at hloop
  have hlist : Leaving s.links t none (b :: waiting t) := hloop.list
  have hprev : s.links.prev (.node b) = .head t := hlist.unlinkNext.prev b rfl
  refine hi.handled rfl rfl (fun u hut => setHandlers_of_ne _ hut _) ?_ (fun _ => .inl rfl) ?_
    (fun _ _ => rfl) ?_ (fun _ _ => rfl)
  · rw [setHandlers_self]
    exact hloop.unlinkNext
  · intro x hx
    apply unlinkNext_next_of_ne
    rw [hprev]
    rintro rfl
    exact hx (mem_region_head.mpr rfl)
  · intro x hx
    change s.flag x = _
    rw [hi.flag x]
    rcases hx with hx | hx
    · rw [hx]
      rfl
    · rw [hx]
      simp [State.flagOf, hpcs, releasedOf, HandlerPc.released]

/-- The second store of `list_remove_node` sets the block free. -/
theorem Inv.unlinkPrev (hi : Inv s waiting owner) (hpcs : s.handlers t = [.unlinkPrev b]) :
    Inv ({ s with links := unlinkPrev s.links (.node b) }.setHandlers t [.loadHead])
      (Function.update waiting t (waiting t)) (Function.update owner b .free) := by
  have hloop := hi.loop t
  rw [hpcs] at hloop
  have hlist : Leaving s.links t (some b) (waiting t) := hloop.list
  have howner : owner b = .handler t := (hloop.handler b).mp rfl
  refine hi.handled rfl rfl (fun u hut => setHandlers_of_ne _ hut _) ?_ ?_ (fun _ _ => rfl) ?_ ?_
    (fun _ _ => rfl)
  · rw [setHandlers_self]
    exact hloop.unlinkPrev
  · intro x
    rw [Function.update_apply]
    grind
  · intro x hx
    apply unlinkPrev_prev_of_ne
    rintro rfl
    rw [hpcs] at hx
    exact hx (List.mem_append_left _ (hlist.next_mem rfl))
  · intro x hx
    change s.flag x = _
    rw [hi.flag x, Function.update_apply]
    rcases hx with hx | hx
    · have hxb : x ≠ b := by
        rintro rfl
        rw [howner] at hx
        cases hx
      rw [if_neg hxb, hx]
      rfl
    · rw [if_pos (hi.eq_block hpcs rfl hx), hx]
      simp [State.flagOf, hpcs, releasedOf, HandlerPc.released]

theorem handlePc_inv (hi : Inv s waiting owner) (hpcs : s.handlers t = [pc])
    (hs : s.handlePc t [] pc = some s') :
    ∃ owner', Inv s' (Function.update waiting t (taken [pc] (waiting t))) owner' := by
  have hloop := hi.loop t
  rw [hpcs] at hloop
  cases pc with
  | loadHead =>
    cases hs
    have hlist : Leaving s.links t none (waiting t) := hloop.list
    have hfirst := hlist.next_head
    refine ⟨owner, hi.goto hpcs rfl rfl rfl rfl rfl rfl (hloop.goto rfl rfl rfl ?_ ?_ (by simp))⟩
    · intro b hb
      rw [HandlerPc.test.injEq, hfirst] at hb
      cases hxs : waiting t <;> simp_all
    · intro u hu
      rw [HandlerPc.test.injEq, hfirst] at hu
      cases hxs : waiting t <;> simp_all
  | test pos =>
    cases pos with
    | head u =>
      rw [State.handlePc] at hs
      split at hs
      · cases hs
        exact ⟨owner, hi.goto hpcs rfl rfl rfl rfl rfl rfl
          (hloop.goto rfl rfl rfl (by simp) (by simp) (by simp))⟩
      · cases hs
    | node b =>
      cases hs
      exact ⟨_, hi.take hpcs⟩
  | compare b i =>
    rw [State.handlePc] at hs
    split at hs
    · cases hs
      exact ⟨owner, hi.goto hpcs rfl rfl rfl rfl rfl rfl
        (hloop.goto rfl rfl rfl (by simp) (by simp) (by simp))⟩
    · next entry hentry =>
      split at hs
      · cases hs
        refine ⟨owner, hi.goto hpcs rfl rfl rfl rfl rfl rfl
          (hloop.goto rfl rfl rfl (by simp) (by simp) ?_)⟩
        intro b' i' heq
        cases heq
        exact (List.getElem?_eq_some_iff.mp hentry).1
      · cases hs
        exact ⟨owner, hi.goto hpcs rfl rfl rfl rfl rfl rfl
          (hloop.goto rfl rfl rfl (by simp) (by simp) (by simp))⟩
  | notify b i =>
    obtain ⟨entry, -, hs⟩ := Option.bind_eq_some_iff.mp hs
    cases hs
    exact ⟨owner, hi.goto hpcs rfl rfl rfl rfl rfl rfl
      (hloop.goto rfl rfl rfl (by simp) (by simp) (by simp))⟩
  | free b =>
    cases hs
    exact ⟨_, hi.free hpcs⟩
  | unlinkNext b =>
    cases hs
    exact ⟨_, hi.unlinkNext hpcs⟩
  | unlinkPrev b =>
    cases hs
    exact ⟨_, hi.unlinkPrev hpcs⟩
  | exit =>
    cases hs
    exact ⟨owner, hi.goto hpcs rfl rfl rfl rfl rfl rfl hloop.exit⟩

/-- A report starts the loop of a thread that has none. -/
theorem Inv.start (hi : Inv s waiting owner) (hpcs : s.handlers t = []) :
    Inv (s.setHandlers t [.loadHead]) (Function.update waiting t (waiting t)) owner := by
  have hloop := hi.loop t
  rw [hpcs] at hloop
  refine hi.handled rfl rfl (fun u hut => setHandlers_of_ne s hut _) ?_ (fun _ => .inl rfl)
    (fun _ _ => rfl) (fun _ _ => rfl) ?_ (fun _ _ => rfl)
  · rw [setHandlers_self]
    exact hloop.start
  · intro x hx
    change s.flag x = _
    rw [hi.flag x]
    rcases hx with hx | hx
    · rw [hx]
      rfl
    · rw [hx]
      simp [State.flagOf, hpcs, releasedOf, HandlerPc.released]

/-- `signal` adds to the `sig_list` of `t`. -/
theorem Inv.signal (hi : Inv s waiting owner) (t : T) (signum : Int) (handler : Nat) :
    Inv (s.signal t signum handler) waiting owner where
  loop u := by
    refine (hi.loop u).frame ?_ (fun _ => .rfl) (fun _ => .rfl) (fun _ _ => rfl) (fun _ _ => rfl)
    change (s.sigList u).length ≤ (Function.update s.sigList t _ u).length
    rw [Function.update_apply]
    split
    · next hut =>
      subst hut
      simp
    · exact le_rfl
  call := hi.call
  flag := hi.flag

section Steps

variable [DecidableEq C]

/-- `list_insert_tail` in `__sigevent_report` hands the block over to the list. -/
theorem Inv.insert (hi : Inv s waiting owner) (hpc : (s.calls c).pc = .report b)
    (hlast : ∀ b ∈ leavingOf (s.handlers t), s.links.prev (.head t) ≠ .node b)
    (result : Option Int) :
    Inv ({ s with links := listInsertTail s.links (.head t) (.node b) }.setCall c
        (.returned result))
      (Function.update waiting t (waiting t ++ [b])) (Function.update owner b (.queue t)) where
  loop u := by
    have howner : owner b = .call c := (hi.call c b).mp (by rw [hpc]; rfl)
    by_cases hut : u = t
    · subst hut
      rw [Function.update_self]
      exact (hi.loop u).insert howner hlast
    · rw [Function.update_of_ne hut]
      have hlastMem := ((hi.loop t).list.last_mem hlast).1
      refine hi.loop_of_ne hut ?_ ?_ ?_
      · intro x
        rw [Function.update_apply]
        grind
      · intro x hx hcall
        apply rawListInsert_next
        · rintro rfl
          exact hx (List.mem_append_left _ hlastMem)
        · rintro rfl
          exact hcall c b rfl howner
      · intro x hx hcall
        apply rawListInsert_prev
        · rintro rfl
          exact hx (mem_region_head.mpr rfl)
        · rintro rfl
          exact hcall c b rfl howner
  call d x := by
    have hd := hi.call d x
    have hc := hi.call c b
    rw [hpc] at hc
    rw [Function.update_apply]
    by_cases hdc : d = c
    · subst hdc
      rw [hpc] at hd
      rw [setCall_self]
      simp only [CallPc.block, Option.some.injEq] at hd ⊢
      grind
    · rw [setCall_of_ne _ hdc]
      simp only [CallPc.block] at hc
      grind
  flag x := by
    change s.flag x = _
    rw [hi.flag x, Function.update_apply]
    have howner : owner b = .call c := (hi.call c b).mp (by rw [hpc]; rfl)
    split
    · next hxb =>
      subst hxb
      rw [howner]
      simp [State.flagOf, hpc, CallPc.reserved, CallPc.block]
    · next hxb =>
      cases hx : owner x with
      | call d =>
        have hdc : d ≠ c := by
          rintro rfl
          have := (hi.call d x).mpr hx
          rw [hpc] at this
          exact hxb (Option.some.inj this).symm
        simp [State.flagOf, setCall_of_ne _ hdc]
      | _ => rfl

theorem callStep_inv (hi : Inv s waiting owner)
    (hok : ∀ i < sigEventTable, (s.calls c).pc = .scan i → ¬ s.Contended i)
    (hs : s.callStep c = some s') : ∃ owner', Inv s' waiting owner' := by
  unfold State.callStep at hs
  split at hs
  · cases hs
  · next hpc =>
    cases hs
    exact ⟨owner, hi.setCall _ _ (by simp [hpc, CallPc.block])
      (by simp [hpc, CallPc.block, CallPc.reserved])⟩
  · next i hpc =>
    split at hs
    · next hlt =>
      split at hs
      · cases hs
        exact ⟨owner, hi.setCall _ _ (by simp [hpc, CallPc.block])
          (by simp [hpc, CallPc.block, CallPc.reserved])⟩
      · next hflag =>
        cases hs
        have hfree := hi.free_of_flag (by simpa using hflag) (hok i hlt hpc)
        exact ⟨_, hi.choose (by simp [hpc, CallPc.block]) hfree⟩
    · cases hs
      exact ⟨owner, hi.setCall _ _ (by simp [hpc, CallPc.block])
        (by simp [hpc, CallPc.block, CallPc.reserved])⟩
  · next i hpc =>
    cases hs
    exact ⟨owner, hi.mark hpc⟩
  · next hpc =>
    cases hs
    exact ⟨owner, hi.setCall _ _ (by simp [hpc, CallPc.block])
      (by simp [hpc, CallPc.block, CallPc.reserved])⟩
  · next sigevent hpc =>
    cases hs
    exact ⟨owner, hi.setCall _ _ (by simp [hpc, CallPc.block])
      (by simp [hpc, CallPc.block, CallPc.reserved])⟩
  · next sigevent hpc =>
    cases hs
    have hset := hi.setCall c { s.calls c with pc := .storeValue sigevent }
      (by simp [hpc, CallPc.block]) (by simp [hpc, CallPc.block, CallPc.reserved])
    exact ⟨owner, hset.loop, hset.call, hset.flag⟩
  · next sigevent hpc =>
    cases hs
    have hset := hi.setCall c { s.calls c with pc := .report sigevent }
      (by simp [hpc, CallPc.block]) (by simp [hpc, CallPc.block, CallPc.reserved])
    exact ⟨owner, hset.loop, hset.call, hset.flag⟩
  · cases hs

/-- What the statements of `sigqueue` before the report leave alone, and what
they put into the block. -/
structure CallFrame (s s' : State T C) (c : C) : Prop where
  sigList : s'.sigList = s.sigList
  handlers : s'.handlers = s.handlers
  notified : s'.notified = s.notified
  signo : ∀ b, (s.calls c).pc.block ≠ some b → s'.signo b = s.signo b
  value : ∀ b, (s.calls c).pc.block ≠ some b → s'.value b = s.value b
  others : ∀ d ≠ c, s'.calls d = s.calls d
  own : ∃ pc, s'.calls c = { s.calls c with pc := pc }
  storeValue : ∀ b, (s'.calls c).pc = .storeValue b → s'.signo b = (s.calls c).signo
  report : ∀ b, (s'.calls c).pc = .report b →
    (s.calls c).pc = .storeValue b ∧ s'.signo = s.signo ∧ s'.value b = (s.calls c).value

omit [DecidableEq T] in
theorem callFrame_setCall {pc : CallPc} (flag : Block → Bool)
    (hvalue : ∀ b, pc ≠ .storeValue b) (hreport : ∀ b, pc ≠ .report b) :
    CallFrame s ({ s with flag := flag }.setCall c pc) c where
  sigList := rfl
  handlers := rfl
  notified := rfl
  signo _ _ := rfl
  value _ _ := rfl
  others _ hdc := setCall_of_ne _ hdc _
  own := ⟨pc, Function.update_self ..⟩
  storeValue b h := absurd ((setCall_self _ _ _).symm.trans h) (hvalue b)
  report b h := absurd ((setCall_self _ _ _).symm.trans h) (hreport b)

omit [DecidableEq T] in
theorem callStep_frame (hs : s.callStep c = some s') : CallFrame s s' c := by
  unfold State.callStep at hs
  split at hs
  · cases hs
  · cases hs
    exact callFrame_setCall s.flag (by simp) (by simp)
  · split at hs
    · split at hs <;> cases hs <;> exact callFrame_setCall s.flag (by simp) (by simp)
    · cases hs
      exact callFrame_setCall s.flag (by simp) (by simp)
  · cases hs
    exact callFrame_setCall _ (by simp) (by simp)
  · cases hs
    exact callFrame_setCall s.flag (by simp) (by simp)
  · cases hs
    exact callFrame_setCall s.flag (by simp) (by simp)
  · next sigevent hpc =>
    cases hs
    refine ⟨rfl, rfl, rfl, ?_, fun _ _ => rfl, fun d hdc => setCall_of_ne _ hdc _,
      ⟨_, Function.update_self ..⟩, ?_, ?_⟩
    · intro b hb
      exact Function.update_of_ne (fun h => hb (by rw [hpc, h]; rfl)) ..
    · intro b hb
      rw [setCall_self] at hb
      cases hb
      exact Function.update_self ..
    · intro b hb
      rw [setCall_self] at hb
      cases hb
  · next sigevent hpc =>
    cases hs
    refine ⟨rfl, rfl, rfl, fun _ _ => rfl, ?_, fun d hdc => setCall_of_ne _ hdc _,
      ⟨_, Function.update_self ..⟩, ?_, ?_⟩
    · intro b hb
      exact Function.update_of_ne (fun h => hb (by rw [hpc, h]; rfl)) ..
    · intro b hb
      rw [setCall_self] at hb
      cases hb
    · intro b hb
      rw [setCall_self] at hb
      cases hb
      exact ⟨hpc, rfl, Function.update_self ..⟩
  · cases hs

theorem sigeventReport_cases {starts : Bool} (hs : s.sigeventReport c starts = some s') :
    ∃ b, (s.calls c).pc = .report b ∧
      ({ s with links := listInsertTail s.links (.head (s.calls c).pid) (.node b) }.setCall c
          (.returned (some 0)) = s' ∧ starts = false ∨
        ({ s with links := listInsertTail s.links (.head (s.calls c).pid) (.node b) }.setCall c
          (.returned (some 0))).setHandlers (s.calls c).pid
            (.loadHead :: s.handlers (s.calls c).pid) = s' ∧ starts = true) := by
  unfold State.sigeventReport at hs
  split at hs
  · next b hpc =>
    refine ⟨b, hpc, ?_⟩
    cases starts with
    | false =>
      cases hs
      exact .inl ⟨rfl, rfl⟩
    | true =>
      cases hs
      exact .inr ⟨rfl, rfl⟩
  · cases hs

/-- The waiting blocks after a step. -/
def State.waitingAfter (s : State T C) (waiting : T → List Block) : Op T C → T → List Block
  | .report c _ =>
      Function.update waiting (s.calls c).pid
        (waiting (s.calls c).pid ++ (s.calls c).pc.block.toList)
  | .handle t => Function.update waiting t (taken (s.handlers t) (waiting t))
  | _ => waiting

theorem step_inv {op : Op T C} (hi : Inv s waiting owner) (hok : Orderly s op)
    (hs : step s op = some s') : ∃ owner', Inv s' (s.waitingAfter waiting op) owner' := by
  cases op with
  | sigqueue c pid signo value =>
    change s.sigqueue c pid signo value = some s' at hs
    unfold State.sigqueue at hs
    split at hs
    · next result hpc =>
      cases hs
      exact ⟨owner, hi.setCall _ _ (by simp [hpc, CallPc.block])
        (by simp [hpc, CallPc.block, CallPc.reserved])⟩
    · cases hs
  | call c => exact callStep_inv hi hok hs
  | report c starts =>
    obtain ⟨b, hpc, hcase⟩ := sigeventReport_cases hs
    have hinsert := hi.insert hpc hok.2 (some 0)
    have hafter : s.waitingAfter waiting (.report c starts) =
        Function.update waiting (s.calls c).pid (waiting (s.calls c).pid ++ [b]) := by
      simp [State.waitingAfter, hpc, CallPc.block]
    rw [hafter]
    rcases hcase with ⟨rfl, -⟩ | ⟨rfl, hstarts⟩
    · exact ⟨_, hinsert⟩
    · have hnone : s.handlers (s.calls c).pid = [] := hok.1 hstarts
      have hstart := hinsert.start hnone
      rw [Function.update_self, Function.update_idem] at hstart
      rw [hnone]
      exact ⟨_, hstart⟩
  | handle t =>
    obtain ⟨pc, outer, hpcs, hs⟩ := handleStep_cases hs
    obtain ⟨hsingle, rfl⟩ := hi.handlers_eq hpcs
    obtain ⟨owner', hi'⟩ := handlePc_inv hi hsingle hs
    refine ⟨owner', ?_⟩
    rw [State.waitingAfter, hsingle]
    exact hi'
  | signal t signum handler =>
    cases hs
    exact ⟨owner, hi.signal t signum handler⟩

end Steps

end PosixRtos.Signal
