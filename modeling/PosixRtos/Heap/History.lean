import PosixRtos.Heap.Release
import PosixRtos.Library.Runs

/-! Any history of `malloc` and `free`. The live pointers are those of the used
blocks, whatever was requested and in whatever order it is given back. -/
namespace PosixRtos.Heap

open PosixRtos.Library.Rings PosixRtos.Library.Runs PosixRtos.Kernel.IntrusiveList

/-- The heap with the pointers that `malloc` has returned and nobody has freed. -/
structure Allocator where
  heap : HeapMem
  live : List Nat

inductive HeapAct where
  | malloc (size : Nat)
  | free (mem : Nat)

/-- A failed assertion ends the run. Only live pointers are freed. -/
def heapStep (s : Allocator) : HeapAct → Option Allocator
  | .malloc size =>
      match malloc s.heap size with
      | .ok (heap, some mem) => some ⟨heap, mem :: s.live⟩
      | .ok (heap, none) => some { s with heap := heap }
      | .error _ => none
  | .free mem =>
      if mem ∈ s.live then
        match free s.heap mem with
        | .ok heap => some ⟨heap, s.live.erase mem⟩
        | .error _ => none
      else none

/-- A region that `heap_mem_init` accepts. -/
structure Region (beginAddr endAddr : Nat) : Prop where
  ordered : beginAddr ≤ endAddr
  inside : endAddr < 2 ^ 32
  large : 2 * sizeofHeapMem + mallocMinSize < sub32 (align endAddr) (align beginAddr)

/-- The blocks `bs`, and the live pointers as their payloads. -/
structure Owns (h : HeapMem) (live bs : List Nat) : Prop where
  tiled : Tiled h bs
  first : FirstFree h bs
  nodup : live.Nodup
  payloads : ∀ mem, mem ∈ live ↔ ∃ b ∈ bs, h.used b = true ∧ mem = b + sizeofHeapMem

variable {h h' h₀ : HeapMem} {live bs : List Nat} {s s' : Allocator} {beginAddr endAddr mem : Nat}

/-! The steps. -/

theorem Owns.take {bs' : List Nat} {p : Nat} (ho : Owns h live bs) (hp : p ∈ bs)
    (hfree : h.used p = false) (htake : Taken h bs p h' bs') (hfirst : FirstFree h' bs') :
    Owns h' ((p + sizeofHeapMem) :: live) bs' where
  tiled := htake.tiled
  first := hfirst
  nodup := by
    refine List.nodup_cons.mpr ⟨fun hmem => ?_, ho.nodup⟩
    obtain ⟨b, -, hused, heq⟩ := (ho.payloads _).mp hmem
    obtain rfl : p = b := Nat.add_right_cancel heq
    rw [hfree] at hused
    cases hused
  payloads mem := by
    rw [List.mem_cons, ho.payloads]
    constructor
    · rintro (rfl | ⟨b, hb, hused, rfl⟩)
      · exact ⟨p, htake.keeps hp, htake.taken, rfl⟩
      · have hbp : b ≠ p := by
          rintro rfl
          rw [hfree] at hused
          cases hused
        exact ⟨b, htake.keeps hb, by rw [htake.others b hb hbp, hused], rfl⟩
    · rintro ⟨b, hb, hused, rfl⟩
      by_cases hbp : b = p
      · exact .inl (by rw [hbp])
      have hold : b ∈ bs := by
        by_contra hnot
        rw [(htake.cut b hb hnot).2] at hused
        cases hused
      exact .inr ⟨b, hold, by rwa [htake.others b hold hbp] at hused, rfl⟩

/-- Freeing a live pointer never fails. -/
theorem Owns.free_live (ho : Owns h live bs) (hmem : mem ∈ live) :
    ∃ h' bs', free h mem = .ok h' ∧ Owns h' (live.erase mem) bs' ∧
      (h'.heapMemBegin = h.heapMemBegin ∧ h'.heapMemEnd = h.heapMemEnd) ∧
      Counts h bs (mem - sizeofHeapMem) h' bs' := by
  obtain ⟨p, hp, hused, rfl⟩ := (ho.payloads mem).mp hmem
  obtain ⟨h', bs', hcall, htiled, hfirst, hbounds, hcounts, hiff⟩ :=
    free_spec ho.tiled ho.first hp hused
  rw [Nat.add_sub_cancel]
  refine ⟨h', bs', hcall, ⟨htiled, hfirst, ho.nodup.erase _, fun mem => ?_⟩, hbounds, hcounts⟩
  rw [ho.nodup.mem_erase_iff, ho.payloads]
  constructor
  · rintro ⟨hne, b, hb, hbused, rfl⟩
    have hbp : b ≠ p := fun hbp => hne (by rw [hbp])
    obtain ⟨hb', hused'⟩ := (hiff b).mpr ⟨hbp, hb, hbused⟩
    exact ⟨b, hb', hused', rfl⟩
  · rintro ⟨b, hb, hbused, rfl⟩
    obtain ⟨hbp, hb', hused'⟩ := (hiff b).mp ⟨hb, hbused⟩
    exact ⟨fun heq => hbp (Nat.add_right_cancel heq), b, hb', hused', rfl⟩

/-- A request that is refused leaves the heap, and one that is met adds a pointer. -/
theorem Owns.after_malloc {n : Nat} {r : Option Nat} (ho : Owns h live bs)
    (hcall : malloc h n = .ok (h', r)) :
    (∃ bs', Owns h' (r.toList ++ live) bs') ∧ h'.heapMemBegin = h.heapMemBegin ∧
      h'.heapMemEnd = h.heapMemEnd := by
  have hspec := malloc_spec ho.tiled ho.first n
  rw [hcall] at hspec
  cases hspec with
  | refused => exact ⟨⟨bs, ho⟩, rfl, rfl⟩
  | took p hp hfree htake hfirst =>
    exact ⟨⟨_, ho.take hp hfree htake hfirst⟩, htake.bounds⟩

theorem heapStep_malloc {size : Nat} (hstep : heapStep s (.malloc size) = some s') :
    ∃ r, malloc s.heap size = .ok (s'.heap, r) ∧ s'.live = r.toList ++ s.live := by
  unfold heapStep at hstep
  dsimp only at hstep
  split at hstep
  next heap mem hcall =>
    cases hstep
    exact ⟨some mem, hcall, rfl⟩
  next heap hcall =>
    cases hstep
    exact ⟨none, hcall, rfl⟩
  next => cases hstep

theorem heapStep_free {mem : Nat} (hstep : heapStep s (.free mem) = some s') :
    mem ∈ s.live ∧ free s.heap mem = .ok s'.heap ∧ s'.live = s.live.erase mem := by
  unfold heapStep at hstep
  dsimp only at hstep
  split at hstep
  next hmem =>
    split at hstep
    next heap hcall =>
      cases hstep
      exact ⟨hmem, hcall, rfl⟩
    next => cases hstep
  next => cases hstep

theorem Owns.step {act : HeapAct} (ho : Owns s.heap s.live bs) (hstep : heapStep s act = some s') :
    (∃ bs', Owns s'.heap s'.live bs') ∧ s'.heap.heapMemBegin = s.heap.heapMemBegin ∧
      s'.heap.heapMemEnd = s.heap.heapMemEnd := by
  cases act with
  | malloc size =>
    obtain ⟨r, hcall, hlive⟩ := heapStep_malloc hstep
    rw [hlive]
    exact ho.after_malloc hcall
  | free mem =>
    obtain ⟨hmem, hcall, hlive⟩ := heapStep_free hstep
    obtain ⟨h', bs', hfree, ho', hbounds, -⟩ := ho.free_live hmem
    rw [hcall] at hfree
    cases hfree
    rw [hlive]
    exact ⟨⟨bs', ho'⟩, hbounds⟩

/-! The start. -/

/-- The sentinel lies where the region ends, whether or not the rounded end wraps
to 0. -/
theorem Region.sentinel (hr : Region beginAddr endAddr) :
    align beginAddr + sizeofHeapMem ≤ sub32 (align endAddr) sizeofHeapMem ∧
      sub32 (align endAddr) sizeofHeapMem + sizeofHeapMem ≤ 2 ^ 32 ∧
      sub32 (align endAddr) sizeofHeapMem % 4 = 0 := by
  obtain ⟨hordered, hinside, hlarge⟩ := hr
  unfold sizeofHeapMem mallocMinSize sub32 align word at *
  omega

/-- The single free block from `first` to the sentinel `last`. -/
theorem initialized_owns {first last : Nat} (h : HeapMem) (memTotalSize : Nat)
    (hroom : first + sizeofHeapMem ≤ last) (htop : last + sizeofHeapMem ≤ 2 ^ 32)
    (hfirst : first % 4 = 0) (hlast : last % 4 = 0) :
    Owns (h.initialized first last memTotalSize) [] [first] := by
  have hne : first ≠ last := by
    unfold sizeofHeapMem at hroom
    omega
  have hfree : (h.initialized first last memTotalSize).used first = false :=
    (Function.update_of_ne hne _ _).trans (Function.update_self ..)
  have hring : (h.initialized first last memTotalSize).links.Ring last [first] := by
    have hempty : (listInit (listInit h.links first) last).Ring first [] :=
      ring_listInit_of_ring last (ring_listInit h.links first)
    have hchain := ring_listInsertHead hempty (by simp) (n := last) (by simp [hne.symm])
      (show [first] = [] ++ first :: [] from rfl)
    have hlinked := List.isChain_cons_cons.mp hchain
    exact .cons_cons (List.isChain_cons_cons.mp hlinked.2).1 (.cons_cons hlinked.1 (.singleton _))
  refine ⟨⟨hring, rfl, ?_, ?_, htop, Function.update_self .., .singleton _, ?_⟩, ⟨?_, hfree, ?_⟩,
    List.nodup_nil, ?_⟩
  · simpa [HeapMem.initialized] using hroom
  · simpa [HeapMem.initialized] using ⟨hfirst, hlast⟩
  · intro b hb hused
    rw [List.mem_singleton.mp hb, hfree] at hused
    cases hused
  · exact List.mem_singleton_self _
  · intro b hb hlt
    rw [List.mem_singleton.mp hb] at hlt
    exact absurd hlt (lt_irrefl _)
  · intro mem
    simp [hfree]

theorem heapMemInit_owns (h₀ : HeapMem) (hr : Region beginAddr endAddr) :
    Owns (heapMemInit h₀ beginAddr endAddr) [] [align beginAddr] ∧
      (heapMemInit h₀ beginAddr endAddr).heapMemBegin = align beginAddr ∧
      (heapMemInit h₀ beginAddr endAddr).heapMemEnd = sub32 (align endAddr) sizeofHeapMem := by
  obtain ⟨hroom, htop, hmod⟩ := hr.sentinel
  have hinit : heapMemInit h₀ beginAddr endAddr = h₀.initialized (align beginAddr)
      (sub32 (align endAddr) sizeofHeapMem)
      (sub32 (sub32 (align endAddr) (align beginAddr)) (2 * sizeofHeapMem)) :=
    if_neg (not_le.mpr hr.large)
  rw [hinit]
  exact ⟨initialized_owns h₀ _ hroom htop (align_mod _) hmod, rfl, rfl⟩

/-! What the invariants say of the memory. -/

/-- The bytes from a pointer to the next header. -/
def HeapMem.extent (h : HeapMem) (mem : Nat) : Set Nat :=
  Set.Ico mem (h.links.next (mem - sizeofHeapMem))

/-- The list of headers `bs`, from `heap_mem_begin` to the sentinel and back, cuts
the region into blocks; the live pointers own the payloads of the used ones. -/
structure WellFormed (h : HeapMem) (live bs : List Nat) : Prop where
  starts : bs.head? = some h.heapMemBegin
  circular : h.links.Chain (bs ++ [h.heapMemEnd, h.heapMemBegin])
  increasing : (bs ++ [h.heapMemEnd]).Pairwise (· < ·)
  sentinel : h.used h.heapMemEnd = true
  tiles : ∀ x, h.heapMemBegin ≤ x → x < h.heapMemEnd → ∃! b, b ∈ bs ∧ b ≤ x ∧ x < h.links.next b
  separated : bs.IsChain fun a b => h.used a = true ∨ h.used b = true
  aligned : ∀ b ∈ bs ++ [h.heapMemEnd], b % 4 = 0
  pointers : ∀ mem ∈ live, mem % 4 = 0
  firstFree : h.heapMemFree ∈ bs ∧ ∀ b ∈ bs, b < h.heapMemFree → h.used b = true
  payloads : ∀ mem, mem ∈ live ↔ ∃ b ∈ bs, h.used b = true ∧ mem = b + sizeofHeapMem
  disjoint : live.Pairwise fun a b => Disjoint (h.extent a) (h.extent b)
  headers : ∀ mem ∈ live, ∀ b ∈ bs ++ [h.heapMemEnd],
    Disjoint (Set.Ico b (b + sizeofHeapMem)) (h.extent mem)

/-- A block ends where the next one begins, if not before. -/
theorem Tiled.next_le {a b : Nat} (ht : Tiled h bs) (ha : a ∈ bs) (hb : b ∈ bs ++ [h.heapMemEnd])
    (hab : a < b) : h.links.next a ≤ b := by
  obtain ⟨pre, post, rfl⟩ := List.append_of_mem ha
  rw [ht.next]
  apply ht.after_le
  rw [List.append_assoc, List.cons_append, List.mem_append, List.mem_cons] at hb
  rcases hb with hb | rfl | hb
  · have := ht.around.1 b hb
    omega
  · omega
  · exact hb

/-- Every address of the region lies in a block: the induction is on the blocks
that follow one which does not begin too late. -/
theorem Tiled.covers (pre : List Nat) {post : List Nat} {b x : Nat}
    (ht : Tiled h (pre ++ b :: post)) (hb : b ≤ x) (hx : x < h.heapMemEnd) :
    ∃ c ∈ pre ++ b :: post, c ≤ x ∧ x < h.links.next c := by
  induction post generalizing pre b with
  | nil =>
    refine ⟨b, by simp, hb, ?_⟩
    rw [ht.next]
    exact hx
  | cons c post ih =>
    rcases Nat.lt_or_ge x c with hlt | hge
    · refine ⟨b, by simp, hb, ?_⟩
      rw [ht.next]
      exact hlt
    · rw [List.append_cons] at ht ⊢
      exact ih (pre ++ [b]) ht hge

theorem Tiled.tiles (ht : Tiled h bs) {x : Nat} (hbegin : h.heapMemBegin ≤ x)
    (hend : x < h.heapMemEnd) : ∃! b, b ∈ bs ∧ b ≤ x ∧ x < h.links.next b := by
  obtain ⟨bs, rfl⟩ : ∃ rest, bs = h.heapMemBegin :: rest := List.head?_eq_some_iff.mp ht.first
  obtain ⟨b, hb, hbx, hxb⟩ := Tiled.covers [] ht hbegin hend
  refine ⟨b, ⟨hb, hbx, hxb⟩, ?_⟩
  rintro c ⟨hc, hcx, hxc⟩
  rcases Nat.lt_trichotomy b c with hlt | heq | hgt
  · have := ht.next_le hb (List.mem_append_left _ hc) hlt
    omega
  · exact heq.symm
  · have := ht.next_le hc (List.mem_append_left _ hb) hgt
    omega

theorem Owns.wellFormed (ho : Owns h live bs) : WellFormed h live bs where
  starts := ho.tiled.first
  circular := by
    obtain ⟨rest, rfl⟩ := List.head?_eq_some_iff.mp ho.tiled.first
    obtain ⟨hback, hblocks⟩ := List.isChain_cons_cons.mp ho.tiled.ring
    exact List.isChain_append_cons_cons.mpr ⟨hblocks, hback, .singleton _⟩
  increasing := ho.tiled.apart.imp fun hab => by
    unfold sizeofHeapMem at hab
    omega
  sentinel := ho.tiled.sentinel
  tiles x hbegin hend := ho.tiled.tiles hbegin hend
  separated := ho.tiled.separated
  aligned := ho.tiled.aligned
  pointers mem hmem := by
    obtain ⟨b, hb, -, rfl⟩ := (ho.payloads mem).mp hmem
    have := ho.tiled.aligned b (List.mem_append_left _ hb)
    unfold sizeofHeapMem
    omega
  firstFree := ⟨ho.first.member, ho.first.before⟩
  payloads := ho.payloads
  disjoint := by
    refine ho.nodup.pairwise_of_forall_ne fun mem hmem mem' hmem' hne => ?_
    obtain ⟨a, ha, -, rfl⟩ := (ho.payloads mem).mp hmem
    obtain ⟨b, hb, -, rfl⟩ := (ho.payloads mem').mp hmem'
    unfold HeapMem.extent
    rw [Nat.add_sub_cancel, Nat.add_sub_cancel, Set.Ico_disjoint_Ico]
    rcases Nat.lt_trichotomy a b with hlt | heq | hgt
    · have := ho.tiled.next_le ha (List.mem_append_left _ hb) hlt
      omega
    · exact absurd (by rw [heq]) hne
    · have := ho.tiled.next_le hb (List.mem_append_left _ ha) hgt
      omega
  headers mem hmem b hb := by
    obtain ⟨p, hp, -, rfl⟩ := (ho.payloads mem).mp hmem
    unfold HeapMem.extent
    rw [Nat.add_sub_cancel, Set.Ico_disjoint_Ico]
    rcases Nat.lt_or_ge p b with hlt | hge
    · have := ho.tiled.next_le hp hb hlt
      omega
    · omega

/-! Every history. -/

/-- Free the pointers one after the other. -/
def freeAll (h : HeapMem) (order : List Nat) : Except Fault HeapMem := order.foldlM free h

/-- One free block from `heap_mem_begin` to the sentinel. -/
structure SingleBlock (h : HeapMem) : Prop where
  wellFormed : WellFormed h [] [h.heapMemBegin]
  free : h.used h.heapMemBegin = false

/-- With nothing live all blocks are free, and neighbours are not both free. -/
theorem Owns.singleBlock (ho : Owns h [] bs) : SingleBlock h := by
  have hfree : ∀ b ∈ bs, h.used b = false := by
    intro b hb
    rw [← Bool.not_eq_true]
    intro hused
    have := (ho.payloads (b + sizeofHeapMem)).mpr ⟨b, hb, hused, rfl⟩
    cases this
  obtain ⟨rest, rfl⟩ := List.head?_eq_some_iff.mp ho.tiled.first
  cases rest with
  | nil => exact ⟨ho.wellFormed, hfree _ (by simp)⟩
  | cons c rest =>
    have hsep := (List.isChain_cons_cons.mp ho.tiled.separated).1
    rw [hfree _ (by simp), hfree c (by simp)] at hsep
    simp at hsep

theorem Owns.freeAll_single {order : List Nat} (ho : Owns h live bs) (horder : order.Perm live) :
    ∃ h', freeAll h order = .ok h' ∧ SingleBlock h' ∧
      h'.heapMemBegin = h.heapMemBegin ∧ h'.heapMemEnd = h.heapMemEnd := by
  induction order generalizing h live bs with
  | nil =>
    obtain rfl := horder.nil_eq
    exact ⟨h, rfl, ho.singleBlock, rfl, rfl⟩
  | cons mem order ih =>
    have hmem : mem ∈ live := horder.subset (List.mem_cons_self ..)
    obtain ⟨h₁, bs₁, hcall, ho₁, ⟨hbegin, hend⟩, -⟩ := ho.free_live hmem
    have hrest : order.Perm (live.erase mem) := by
      have := horder.erase mem
      rwa [List.erase_cons_head] at this
    obtain ⟨h', hrun, hsingle, hbegin', hend'⟩ := ih ho₁ hrest
    refine ⟨h', ?_, hsingle, hbegin'.trans hbegin, hend'.trans hend⟩
    rw [freeAll, List.foldlM_cons, hcall]
    exact hrun

/-- The search of `malloc` and its loop over the used blocks always end. -/
theorem Owns.malloc_ends (ho : Owns h live bs) (size : Nat) : malloc h size ≠ .error .endless := by
  have hspec := malloc_spec ho.tiled ho.first size
  generalize malloc h size = result at hspec
  cases hspec <;> simp

/-- Every state that `malloc` and `free` can reach. -/
theorem reaches_owns (hregion : Region beginAddr endAddr)
    (hrun : Reaches heapStep anyStep ⟨heapMemInit h₀ beginAddr endAddr, []⟩ s) :
    (∃ bs, Owns s.heap s.live bs) ∧ s.heap.heapMemBegin = align beginAddr ∧
      s.heap.heapMemEnd = sub32 (align endAddr) sizeofHeapMem := by
  refine hrun.invariant
    (fun s => (∃ bs, Owns s.heap s.live bs) ∧ s.heap.heapMemBegin = align beginAddr ∧
      s.heap.heapMemEnd = sub32 (align endAddr) sizeofHeapMem)
    ⟨⟨_, (heapMemInit_owns h₀ hregion).1⟩, (heapMemInit_owns h₀ hregion).2⟩ ?_
  rintro s act s' ⟨⟨bs, ho⟩, hbegin, hend⟩ - hstep
  obtain ⟨hnext, hbegin', hend'⟩ := ho.step hstep
  exact ⟨hnext, hbegin'.trans hbegin, hend'.trans hend⟩

theorem heap_wellFormed (hregion : Region beginAddr endAddr)
    (hrun : Reaches heapStep anyStep ⟨heapMemInit h₀ beginAddr endAddr, []⟩ s) :
    (∃ bs, WellFormed s.heap s.live bs) ∧ s.heap.heapMemBegin = align beginAddr ∧
      s.heap.heapMemEnd = sub32 (align endAddr) sizeofHeapMem ∧
      (∀ size, malloc s.heap size ≠ .error .endless) ∧
      ∀ order : List Nat, order.Perm s.live → ∃ h, freeAll s.heap order = .ok h ∧ SingleBlock h ∧
        h.heapMemBegin = s.heap.heapMemBegin ∧ h.heapMemEnd = s.heap.heapMemEnd := by
  obtain ⟨⟨bs, ho⟩, hbegin, hend⟩ := reaches_owns hregion hrun
  exact ⟨⟨bs, ho.wellFormed⟩, hbegin, hend, ho.malloc_ends, fun _ => ho.freeAll_single⟩

/-- A kilobyte with the ends off the word boundary. -/
def smallHeap : Allocator :=
  ⟨heapMemInit ⟨⟨id, id⟩, fun _ => false, 0, 0, 0, 0, 0⟩ 0x20000001 0x200003ff, []⟩

/-- The third request is rounded to a block without payload. -/
def fiveActs : List HeapAct :=
  [.malloc 5, .malloc 40, .malloc 0xffffffff, .free 0x20000010, .malloc 12]

theorem smallHeap_wellFormed :
    ∃ s, runInputs heapStep anyStep fiveActs smallHeap = some s ∧ s.live.length = 3 ∧
      (∃ bs, WellFormed s.heap s.live bs) ∧
      ∃ h, freeAll s.heap s.live = .ok h ∧ SingleBlock h := by
  have hlive : (runInputs heapStep anyStep fiveActs smallHeap).map (fun s => s.live.length) =
      some 3 := by decide +kernel
  obtain ⟨s, hs, hlength⟩ := Option.map_eq_some_iff.mp hlive
  obtain ⟨hwell, -, -, -, hfree⟩ := heap_wellFormed ⟨by decide, by decide, by decide⟩
    (.of_runInputs hs)
  obtain ⟨h, hcall, hsingle, -⟩ := hfree s.live (.refl _)
  exact ⟨s, hs, hlength, hwell, h, hcall, hsingle⟩

end PosixRtos.Heap
