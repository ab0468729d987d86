import PosixRtos.Signal.Events

/-! Who owns an event block. A block is free, chosen by one call, waiting in
one list, or in the hands of one handler loop, and its flag follows from that.
Two things break this: a call that finds a flag clear while the block is not
yet out of its list, or while another call has found it clear and not yet set
it; and an insertion between the two stores that take the only block out. -/
namespace PosixRtos.Signal

open PosixRtos.Library.Rings PosixRtos.Library.Runs PosixRtos.Kernel.IntrusiveList

inductive Owner (T C : Type) where
  | free
  | call (c : C)
  | queue (t : T)
  | handler (t : T)
deriving DecidableEq

variable {T C : Type} {pc pc' : HandlerPc T} {pcs : List (HandlerPc T)} {b : Block}

theorem front_block (h : pc.front = some b) : pc.block = some b := by
  cases pc <;> simp_all [HandlerPc.front, HandlerPc.block]

theorem leaving_block (h : pc.leaving = some b) : pc.block = some b := by
  cases pc <;> simp_all [HandlerPc.leaving, HandlerPc.block]

theorem eq_mark {pc : CallPc} (hblock : pc.block = some b)
    (hreserved : pc.reserved.isSome = false) : pc = .mark b := by
  cases pc <;> simp_all [CallPc.block, CallPc.reserved]

theorem released_of_block (hblock : pc.block = some b) (hreleased : pc.released.isNone = false) :
    pc.released = some b := by
  cases pc <;> simp_all [HandlerPc.block, HandlerPc.released]

theorem blockOf_of_frontOf (h : frontOf pcs = some b) : blockOf pcs = some b := by
  obtain ⟨pc, hpc, hfront⟩ := Option.bind_eq_some_iff.mp h
  exact Option.bind_eq_some_iff.mpr ⟨pc, hpc, front_block hfront⟩

theorem blockOf_of_leavingOf (h : leavingOf pcs = some b) : blockOf pcs = some b := by
  obtain ⟨pc, hpc, hleaving⟩ := Option.bind_eq_some_iff.mp h
  exact Option.bind_eq_some_iff.mpr ⟨pc, hpc, leaving_block hleaving⟩

/-- The blocks that are linked into a list: the one being handled, and those waiting. -/
def linkedOf (pcs : List (HandlerPc T)) (waiting : List Block) : List Block :=
  (frontOf pcs).toList ++ waiting

/-- The cells that the list of `t` depends on. -/
def regionOf (t : T) (pcs : List (HandlerPc T)) (waiting : List Block) : List (Cell T Block) :=
  region t (leavingOf pcs) (linkedOf pcs waiting)

variable [DecidableEq T] {s s' : State T C} {t u : T} {c d : C} {l l' : Links (Cell T Block)}
  {entries : List Registration} {xs xs' : List Block} {waiting : T → List Block}
  {owner owner' : Block → Owner T C}

/-- The list of `t` and its handler loop. -/
structure Loop (l : Links (Cell T Block)) (entries : List Registration)
    (pcs : List (HandlerPc T)) (xs : List Block) (owner : Block → Owner T C) (t : T) : Prop where
  single : pcs.length ≤ 1
  list : Leaving l t (leavingOf pcs) (linkedOf pcs xs)
  queue : ∀ b, b ∈ xs ↔ owner b = .queue t
  handler : ∀ b, blockOf pcs = some b ↔ owner b = .handler t
  test : ∀ b, .test (.node b) ∈ pcs → xs.head? = some b
  home : ∀ u, .test (.head u) ∈ pcs → u = t
  notify : ∀ b i, .notify b i ∈ pcs → i < entries.length

/-- The flag that a block of this owner has. -/
def State.flagOf (s : State T C) : Owner T C → Bool
  | .free => false
  | .call c => (s.calls c).pc.reserved.isSome
  | .queue _ => true
  | .handler t => (releasedOf (s.handlers t)).isNone

structure Inv (s : State T C) (waiting : T → List Block) (owner : Block → Owner T C) : Prop where
  loop : ∀ t, Loop s.links (s.sigList t) (s.handlers t) (waiting t) owner t
  call : ∀ c b, (s.calls c).pc.block = some b ↔ owner b = .call c
  flag : ∀ b, s.flag b = s.flagOf (owner b)

/-- A call that has found the flag clear and not yet set it, or a loop that has
cleared it and not yet removed the block. -/
def State.Contended (s : State T C) (b : Block) : Prop :=
  (∃ c, (s.calls c).pc = .mark b) ∨ ∃ t, ∃ pc ∈ s.handlers t, pc.released = some b

/-- The condition on the steps of a run: no call tests the flag of a contended
block, no report starts a loop over another one of the same thread, and none
inserts while the last block of the list is half removed. -/
def Orderly (s : State T C) : Op T C → Prop
  | .call c => ∀ i < sigEventTable, (s.calls c).pc = .scan i → ¬ s.Contended i
  | .report c starts =>
      (starts = true → s.handlers (s.calls c).pid = []) ∧
        ∀ b ∈ leavingOf (s.handlers (s.calls c).pid),
          s.links.prev (.head (s.calls c).pid) ≠ .node b
  | _ => True

theorem initial_inv (hs : Initial s) : Inv s (fun _ => []) (fun _ => .free) where
  loop t := by
    have hlist : Leaving s.links t none [] := leaving_none_iff.mpr ⟨hs.list t, List.nodup_nil⟩
    rw [hs.handlers t]
    exact ⟨Nat.zero_le 1, hlist, by simp, by simp [blockOf], by simp, by simp, by simp⟩
  call c b := by simp [hs.calls c, CallPc.block]
  flag b := hs.flag b

/-! Blocks of different threads and of different calls are apart. -/

theorem Loop.owner_of_linked (hl : Loop l entries pcs xs owner t) (hb : b ∈ linkedOf pcs xs) :
    owner b = .queue t ∨ owner b = .handler t := by
  rcases List.mem_append.mp hb with hfront | hwait
  · exact .inr ((hl.handler b).mp (blockOf_of_frontOf (Option.mem_toList.mp hfront)))
  · exact .inl ((hl.queue b).mp hwait)

theorem Loop.owner_of_region (hl : Loop l entries pcs xs owner t)
    (hb : .node b ∈ regionOf t pcs xs) : owner b = .queue t ∨ owner b = .handler t := by
  rcases mem_region_node.mp hb with hlinked | hleaving
  · exact hl.owner_of_linked hlinked
  · exact .inr ((hl.handler b).mp (blockOf_of_leavingOf hleaving))

theorem Inv.region_disjoint (hi : Inv s waiting owner) (hne : u ≠ t) {x : Cell T Block}
    (hx : x ∈ regionOf u (s.handlers u) (waiting u)) :
    x ∉ regionOf t (s.handlers t) (waiting t) := by
  intro hx'
  cases x with
  | head h => exact hne ((mem_region_head.mp hx).symm.trans (mem_region_head.mp hx'))
  | node n =>
    have hu := (hi.loop u).owner_of_region hx
    have ht := (hi.loop t).owner_of_region hx'
    grind

/-- Nothing that the loop of `t` looks at has changed. -/
theorem Loop.frame (hl : Loop l entries pcs xs owner t) {entries' : List Registration}
    (hentries : entries.length ≤ entries'.length)
    (hqueue : ∀ b, owner' b = .queue t ↔ owner b = .queue t)
    (hhandler : ∀ b, owner' b = .handler t ↔ owner b = .handler t)
    (hnext : ∀ x ∈ regionOf t pcs xs, l'.next x = l.next x)
    (hprev : ∀ x ∈ regionOf t pcs xs, l'.prev x = l.prev x) :
    Loop l' entries' pcs xs owner' t where
  single := hl.single
  list := hl.list.transport hnext hprev
  queue b := (hl.queue b).trans (hqueue b).symm
  handler b := (hl.handler b).trans (hhandler b).symm
  test := hl.test
  home := hl.home
  notify b i h := (hl.notify b i h).trans_le hentries

/-- A cell that belongs to no call. -/
def OutsideCalls (owner : Block → Owner T C) (x : Cell T Block) : Prop :=
  ∀ c b, x = .node b → owner b ≠ .call c

/-- A step inside the list of `t`: what it writes is in its region or a call's
own, and the blocks that change hands are those of `t`, of calls, or free. -/
theorem Inv.loop_of_ne (hi : Inv s waiting owner) (hne : u ≠ t)
    (howner : ∀ b, owner' b = owner b ∨
      ((∀ u ≠ t, owner b ≠ .queue u ∧ owner b ≠ .handler u) ∧
        ∀ u ≠ t, owner' b ≠ .queue u ∧ owner' b ≠ .handler u))
    (hnext : ∀ x ∉ regionOf t (s.handlers t) (waiting t), OutsideCalls owner x →
      l'.next x = s.links.next x)
    (hprev : ∀ x ∉ regionOf t (s.handlers t) (waiting t), OutsideCalls owner x →
      l'.prev x = s.links.prev x) :
    Loop l' (s.sigList u) (s.handlers u) (waiting u) owner' u := by
  have hcall : ∀ x ∈ regionOf u (s.handlers u) (waiting u), OutsideCalls owner x := by
    rintro x hx c b rfl
    have hb := (hi.loop u).owner_of_region hx
    grind
  refine (hi.loop u).frame le_rfl ?_ ?_ ?_ ?_
  · intro b
    rcases howner b with hsame | ⟨hold, hnew⟩
    · rw [hsame]
    · exact iff_of_false (hnew u hne).1 (hold u hne).1
  · intro b
    rcases howner b with hsame | ⟨hold, hnew⟩
    · rw [hsame]
    · exact iff_of_false (hnew u hne).2 (hold u hne).2
  · intro x hx
    exact hnext x (hi.region_disjoint hne hx) (hcall x hx)
  · intro x hx
    exact hprev x (hi.region_disjoint hne hx) (hcall x hx)

/-! The statements of `sigqueue`. -/

/-- A block whose flag is clear is free, unless it is contended. -/
theorem Inv.free_of_flag (hi : Inv s waiting owner) (hflag : s.flag b = false)
    (hfree : ¬ s.Contended b) : owner b = .free := by
  have hof := hi.flag b
  rw [hflag] at hof
  cases howner : owner b with
  | free => rfl
  | queue t => simp [howner, State.flagOf] at hof
  | call c =>
    exfalso
    have hblock := (hi.call c b).mpr howner
    rw [howner] at hof
    exact hfree (.inl ⟨c, eq_mark hblock hof.symm⟩)
  | handler t =>
    exfalso
    obtain ⟨pc, hpc, hblock⟩ :=
      Option.bind_eq_some_iff.mp (((hi.loop t).handler b).mpr howner)
    rw [howner] at hof
    simp only [State.flagOf, releasedOf, hpc, Option.bind_some] at hof
    exact hfree (.inr ⟨t, pc, List.mem_of_head? hpc, released_of_block hblock hof.symm⟩)

section Calls

variable [DecidableEq C]

/-- A call goes on without choosing or giving up a block. -/
theorem Inv.setCall (hi : Inv s waiting owner) (c : C) (call : Call T)
    (hblock : call.pc.block = (s.calls c).pc.block)
    (hreserved : call.pc.reserved = (s.calls c).pc.reserved) :
    Inv { s with calls := Function.update s.calls c call } waiting owner where
  loop := hi.loop
  call d b := by
    rw [← hi.call d b]
    by_cases hdc : d = c
    · subst hdc
      simp [hblock]
    · simp [Function.update_of_ne hdc]
  flag b := by
    rw [hi.flag b]
    cases owner b with
    | call d =>
      by_cases hdc : d = c
      · subst hdc
        simp [State.flagOf, hreserved]
      · simp [State.flagOf, Function.update_of_ne hdc]
    | _ => rfl

/-- A call chooses a free block. -/
theorem Inv.choose (hi : Inv s waiting owner) (hscan : (s.calls c).pc.block = none)
    (hfree : owner b = .free) :
    Inv (s.setCall c (.mark b)) waiting (Function.update owner b (.call c)) where
  loop t := by
    refine (hi.loop t).frame le_rfl ?_ ?_ (fun _ _ => rfl) (fun _ _ => rfl)
    · intro x
      rw [Function.update_apply]
      grind
    · intro x
      rw [Function.update_apply]
      grind
  call d x := by
    have hd := hi.call d x
    rw [Function.update_apply]
    by_cases hdc : d = c
    · subst hdc
      rw [setCall_self]
      simp only [CallPc.block, Option.some.injEq]
      grind
    · rw [setCall_of_ne s hdc]
      grind
  flag x := by
    rw [show (s.setCall c (.mark b)).flag x = s.flag x from rfl, hi.flag x, Function.update_apply]
    split
    · next hxb =>
      subst hxb
      simp [hfree, State.flagOf, setCall_self, CallPc.reserved]
    · cases howner : owner x with
      | call d =>
        have hdc : d ≠ c := by
          rintro rfl
          have := (hi.call d x).mpr howner
          rw [hscan] at this
          cases this
        simp [State.flagOf, setCall_of_ne s hdc]
      | _ => rfl

/-- The call sets the flag of the block it has chosen. -/
theorem Inv.mark (hi : Inv s waiting owner) (hpc : (s.calls c).pc = .mark b) :
    Inv ({ s with flag := Function.update s.flag b true }.setCall c (.unlock (some b)))
      waiting owner where
  loop := hi.loop
  call d x := by
    rw [← hi.call d x]
    by_cases hdc : d = c
    · subst hdc
      rw [setCall_self, hpc]
      rfl
    · rw [setCall_of_ne _ hdc]
  flag x := by
    have howner : owner b = .call c := (hi.call c b).mp (by rw [hpc]; rfl)
    change Function.update s.flag b true x = _
    rw [Function.update_apply]
    split
    · next hxb =>
      subst hxb
      simp [howner, State.flagOf, setCall_self, CallPc.reserved, CallPc.block]
    · next hxb =>
      rw [hi.flag x]
      cases hx : owner x with
      | call d =>
        have hdc : d ≠ c := by
          rintro rfl
          have := (hi.call d x).mpr hx
          rw [hpc] at this
          exact hxb (Option.some.inj this).symm
        simp [State.flagOf, setCall_of_ne _ hdc]
      | _ => rfl

end Calls

end PosixRtos.Signal
