import PosixRtos.Heap.Blocks

/-! `free` on the block list: the block becomes free and swallows the free block
behind it; the free block before it swallows it in turn. -/
namespace PosixRtos.Heap

open PosixRtos.Library.Rings PosixRtos.Kernel.IntrusiveList

variable {h h' : HeapMem} {bs bs' pre post post₁ : List Nat} {p : Nat}

/-- A heap with some of the headers taken out. -/
theorem Tiled.shrink (ht : Tiled h bs) (hsub : bs'.Sublist bs) (hfirst : bs'.head? = bs.head?)
    (hring : h'.links.Ring h.heapMemEnd bs') (hend : h'.heapMemEnd = h.heapMemEnd)
    (hbegin : h'.heapMemBegin = h.heapMemBegin) (hsentinel : h'.used h.heapMemEnd = true)
    (hused : ∀ b, h'.used b = true → h.used b = true)
    (hsep : bs'.IsChain fun a b => h'.used a = true ∨ h'.used b = true) : Tiled h' bs' where
  ring := hend ▸ hring
  first := by rw [hfirst, ht.first, hbegin]
  apart := by
    rw [hend]
    exact ht.apart.sublist (hsub.append_right _)
  aligned b hb := by
    rw [hend] at hb
    exact ht.aligned b ((hsub.append_right _).subset hb)
  top := hend ▸ ht.top
  sentinel := hend ▸ hsentinel
  separated := hsep
  roomy b hb hb' := by
    rw [hend]
    exact ht.roomy b (hsub.subset hb) (hused b hb')

theorem markFree_of_ne (h : HeapMem) {b : Nat} (hb : b ≠ p) : (h.markFree p).used b = h.used b :=
  Function.update_of_ne hb _ _

theorem Tiled.markFree_sentinel (ht : Tiled h bs) (hp : p ∈ bs) :
    (h.markFree p).used h.heapMemEnd = true :=
  (markFree_of_ne h (ht.ne_end hp).symm).trans ht.sentinel

theorem used_of_markFree {b : Nat} (hb : (h.markFree p).used b = true) :
    b ≠ p ∧ h.used b = true := by
  have hne : b ≠ p := by
    rintro rfl
    simp [HeapMem.markFree] at hb
  exact ⟨hne, by rwa [markFree_of_ne h hne] at hb⟩

/-- The block behind `p` is gone if it was free; what follows now is used. -/
theorem mergeNext_spec (ht : Tiled h (pre ++ p :: post)) :
    ∃ links post₁, (h.markFree p).mergeNext p = { h.markFree p with links := links } ∧
      links.Ring h.heapMemEnd (pre ++ p :: post₁) ∧
      (post₁ = post ∨ ∃ n, post = n :: post₁ ∧ h.used n = false) ∧
      ∀ b ∈ post₁.head?, h.used b = true := by
  have hnext : (h.markFree p).links.next p = h.after post := ht.next
  obtain ⟨-, hright⟩ := ht.around
  have hheader : sizeofHeapMem = 12 := rfl
  unfold HeapMem.mergeNext
  rw [hnext]
  cases post with
  | nil =>
    have hused : (h.markFree p).used (h.after []) = true := ht.markFree_sentinel (by simp)
    refine ⟨h.links, [], ?_, ht.ring, .inl rfl, by simp⟩
    dsimp only
    rw [hused]
    rfl
  | cons n post =>
    have hflag : (h.markFree p).used (h.after (n :: post)) = h.used n :=
      markFree_of_ne h (b := n) (by have := hright n (by simp); omega)
    dsimp only
    rw [hflag]
    cases hn : h.used n with
    | true => exact ⟨h.links, n :: post, rfl, ht.ring, .inl rfl, by simpa using hn⟩
    | false =>
      have ht' : Tiled h ((pre ++ [p]) ++ n :: post) := by simpa using ht
      have hring := ring_listRemoveNode ht'.ring ht'.nodup
      rw [List.append_assoc] at hring
      exact ⟨_, post, rfl, hring, .inr ⟨n, rfl, hn⟩, (ht'.neighbours_used hn).2⟩

/-- The block `p` has become free and is part of the free block `freeMem`. -/
structure Freed (h : HeapMem) (bs : List Nat) (p : Nat) (h' : HeapMem) (freeMem : Nat)
    (bs' : List Nat) : Prop where
  tiled : Tiled h' bs'
  shrinks : bs' ⊆ bs
  flags : h'.used = (h.markFree p).used
  gone : ∀ b ∈ bs, b ∉ bs' → p ≤ b ∧ h'.used b = false
  member : freeMem ∈ bs'
  unused : h'.used freeMem = false
  le : freeMem ≤ p
  self : p ∈ bs' → freeMem = p
  first : h'.heapMemFree = h.heapMemFree
  bounds : h'.heapMemBegin = h.heapMemBegin ∧ h'.heapMemEnd = h.heapMemEnd

/-- The blocks after `free` has looked at the block behind `p`. -/
structure Joined (h : HeapMem) (pre : List Nat) (p : Nat) (post post₁ : List Nat) : Prop where
  tiled : Tiled h (pre ++ p :: post)
  rest : post₁ = post ∨ ∃ n, post = n :: post₁ ∧ h.used n = false
  behind : ∀ b ∈ post₁.head?, h.used b = true

theorem Joined.sublist (hj : Joined h pre p post post₁) : post₁.Sublist post := by
  rcases hj.rest with rfl | ⟨n, rfl, -⟩
  · exact List.Sublist.refl _
  · exact List.sublist_cons_self n post₁

/-- A block that is gone lies behind `p` and was free. -/
theorem Joined.gone (hj : Joined h pre p post post₁) {b : Nat} (hb : b ∈ post) (hnot : b ∉ post₁) :
    p ≤ b ∧ (h.markFree p).used b = false := by
  have hpb := hj.tiled.around.2 b hb
  have hheader : sizeofHeapMem = 12 := rfl
  refine ⟨by omega, ?_⟩
  rcases hj.rest with rfl | ⟨n, rfl, hn⟩
  · exact absurd hb hnot
  · rcases List.mem_cons.mp hb with rfl | hb
    · rwa [markFree_of_ne h (by omega)]
    · exact absurd hb hnot

theorem Joined.rest_separated (hj : Joined h pre p post post₁) :
    post₁.IsChain fun a b => h.used a = true ∨ h.used b = true := by
  have hsep := (isChain_around.mp hj.tiled.separated).2.2
  rcases hj.rest with rfl | ⟨n, rfl, -⟩
  · exact hsep
  · exact (List.isChain_cons.mp hsep).2

/-- Without the block before `p`, no two neighbours are free if that one is used. -/
theorem Joined.separated (hj : Joined h pre p post post₁)
    (hbefore : ∀ a ∈ pre.getLast?, h.used a = true) :
    (pre ++ p :: post₁).IsChain fun a b =>
      (h.markFree p).used a = true ∨ (h.markFree p).used b = true := by
  obtain ⟨hleft, hright⟩ := hj.tiled.around
  have hheader : sizeofHeapMem = 12 := rfl
  have hpre : ∀ b ∈ pre, (h.markFree p).used b = h.used b :=
    fun b hb => markFree_of_ne h (by have := hleft b hb; omega)
  have hpost : ∀ b ∈ post₁, (h.markFree p).used b = h.used b :=
    fun b hb => markFree_of_ne h (by have := hright b (hj.sublist.subset hb); omega)
  obtain ⟨⟨hsepl, -⟩, -, -⟩ := isChain_around.mp hj.tiled.separated
  refine isChain_around.mpr ⟨⟨separated_congr hsepl hpre, ?_⟩, ?_,
    separated_congr hj.rest_separated hpost⟩
  · intro a ha
    rw [hpre a (List.mem_of_mem_getLast? ha)]
    exact .inl (hbefore a ha)
  · intro b hb
    rw [hpost b (List.mem_of_mem_head? hb)]
    exact .inr (hj.behind b hb)

/-- The block before `p` is used or there is none: `p` stays. -/
theorem Joined.stays (hj : Joined h pre p post post₁) {links : Links Nat}
    (hring : links.Ring h.heapMemEnd (pre ++ p :: post₁))
    (hbefore : ∀ a ∈ pre.getLast?, h.used a = true) :
    Freed h (pre ++ p :: post) p { h.markFree p with links := links } p (pre ++ p :: post₁) where
  tiled := by
    have hsub : (pre ++ p :: post₁).Sublist (pre ++ p :: post) :=
      (hj.sublist.cons_cons p).append_left pre
    refine hj.tiled.shrink hsub ?_ hring rfl rfl ?_ (fun b hb => (used_of_markFree hb).2)
      (hj.separated hbefore)
    · cases pre <;> rfl
    · exact hj.tiled.markFree_sentinel (by simp)
  shrinks := ((hj.sublist.cons_cons p).append_left pre).subset
  flags := rfl
  gone b hb hnot := by
    simp only [List.mem_append, List.mem_cons, not_or] at hb hnot
    exact hj.gone ((hb.resolve_left hnot.1).resolve_left hnot.2.1) hnot.2.2
  member := by simp
  unused := Function.update_self ..
  le := le_rfl
  self _ := rfl
  first := rfl
  bounds := ⟨rfl, rfl⟩

/-- The free block `v` before `p` swallows it. -/
theorem Joined.swallowed {v : Nat} (hj : Joined h (pre ++ [v]) p post post₁) {links : Links Nat}
    (hring : links.Ring h.heapMemEnd (pre ++ [v] ++ p :: post₁)) (hv : h.used v = false) :
    Freed h (pre ++ [v] ++ p :: post) p
      { h.markFree p with links := listRemoveNode links p } v (pre ++ [v] ++ post₁) := by
  have ht := hj.tiled
  obtain ⟨hleft, hright⟩ := ht.around
  have hheader : sizeofHeapMem = 12 := rfl
  have hvp : v < p := by
    have := hleft v (by simp)
    omega
  have hkept : (pre ++ [v] ++ p :: post₁).Sublist (pre ++ [v] ++ p :: post) :=
    (hj.sublist.cons_cons p).append_left _
  have hsub : (pre ++ [v] ++ post₁).Sublist (pre ++ [v] ++ p :: post) :=
    ((List.sublist_cons_self p post₁).append_left _).trans hkept
  have hmissing : p ∉ pre ++ [v] ++ post₁ := by
    intro hmem
    rcases List.mem_append.mp hmem with hmem | hmem
    · have := hleft p hmem
      omega
    · have := hright p (hj.sublist.subset hmem)
      omega
  have hflags : ∀ b ∈ pre ++ [v] ++ post₁, (h.markFree p).used b = h.used b :=
    fun b hb => markFree_of_ne h fun hbp => hmissing (hbp ▸ hb)
  have hsep : (pre ++ [v] ++ post₁).IsChain fun a b => h.used a = true ∨ h.used b = true := by
    have ht' : Tiled h (pre ++ v :: (p :: post)) := by simpa using ht
    obtain ⟨hsepl, -, -⟩ := isChain_around.mp ht'.separated
    rw [List.append_assoc]
    exact isChain_around.mpr ⟨hsepl, fun b hb => .inr (hj.behind b hb), hj.rest_separated⟩
  refine ⟨?_, hsub.subset, rfl, ?_, by simp, ?_, hvp.le, fun hmem => absurd hmem hmissing, rfl,
    rfl, rfl⟩
  · refine ht.shrink hsub ?_ ?_ rfl rfl ?_ (fun b hb => (used_of_markFree hb).2)
      (separated_congr hsep hflags)
    · cases pre <;> rfl
    · exact ring_listRemoveNode hring (ht.nodup.sublist (hkept.cons_cons _))
    · exact ht.markFree_sentinel (by simp)
  · intro b hb hnot
    rcases List.mem_append.mp hb with hb | hb
    · exact absurd (List.mem_append_left _ hb) hnot
    rcases List.mem_cons.mp hb with rfl | hb
    · exact ⟨le_rfl, Function.update_self ..⟩
    · exact hj.gone hb fun hmem => hnot (List.mem_append_right _ hmem)
  · exact (hflags v (by simp)).trans hv

/-- The block behind `p` that is gone held no used bytes. -/
theorem Joined.occupied_rest (hj : Joined h pre p post post₁) (last : Nat) :
    occupied h.used last post₁ = occupied h.used last post := by
  rcases hj.rest with rfl | ⟨n, rfl, hn⟩
  · rfl
  · rw [occupied, hn, if_neg Bool.false_ne_true, Nat.zero_add]

theorem Joined.markFree_flags (hj : Joined h pre p post post₁) :
    ∀ b ∈ pre ++ post₁, (h.markFree p).used b = h.used b := by
  obtain ⟨hleft, hright⟩ := hj.tiled.around
  have hheader : sizeofHeapMem = 12 := rfl
  intro b hb
  rcases List.mem_append.mp hb with hb | hb
  · exact markFree_of_ne h (by have := hleft b hb; omega)
  · exact markFree_of_ne h (by have := hright b (hj.sublist.subset hb); omega)

/-- The block `p` alone is taken off the used bytes. -/
theorem Joined.occupied_stays (hj : Joined h pre p post post₁) (hused : h.used p = true) :
    occupied (h.markFree p).used h.heapMemEnd (pre ++ p :: post₁) + (h.after post - p) =
      occupied h.used h.heapMemEnd (pre ++ p :: post) := by
  have hfree : (h.markFree p).used p = false := Function.update_self ..
  rw [occupied_around h.heapMemEnd hj.markFree_flags, hfree,
    occupied_around h.heapMemEnd fun _ _ => rfl, hused, hj.occupied_rest, if_pos rfl,
    if_neg Bool.false_ne_true]
  change _ + (h.after post - p) = _ + (h.after post - p + _)
  omega

theorem Joined.occupied_swallowed {v : Nat} (hj : Joined h (pre ++ [v]) p post post₁)
    (hused : h.used p = true) (hv : h.used v = false) :
    occupied (h.markFree p).used h.heapMemEnd (pre ++ [v] ++ post₁) + (h.after post - p) =
      occupied h.used h.heapMemEnd (pre ++ [v] ++ p :: post) := by
  rw [occupied_congr _ hj.markFree_flags, occupied_around h.heapMemEnd fun _ _ => rfl, hused,
    if_pos rfl, ← hj.occupied_rest, List.append_assoc, List.singleton_append,
    occupied_around h.heapMemEnd fun _ _ => rfl, occupied_append, occupied, hv,
    if_neg Bool.false_ne_true, if_neg Bool.false_ne_true]
  change _ + (h.after post - p) = _ + (h.after post - p + _)
  rw [occupied]
  omega

/-- Both sides of the block have been looked at. -/
theorem merge_spec (ht : Tiled h (pre ++ p :: post)) (hused : h.used p = true) :
    ∃ h' freeMem bs', ((h.markFree p).mergeNext p).mergePrev p = (h', freeMem) ∧
      Freed h (pre ++ p :: post) p h' freeMem bs' ∧
      h'.memTotalSize = h.memTotalSize ∧ h'.memUsedSize = h.memUsedSize ∧
      occupied h'.used h.heapMemEnd bs' + (h.after post - p) =
        occupied h.used h.heapMemEnd (pre ++ p :: post) := by
  obtain ⟨links, post₁, hnext, hring, hrest, hbehind⟩ := mergeNext_spec ht
  have hj : Joined h pre p post post₁ := ⟨ht, hrest, hbehind⟩
  rw [hnext]
  unfold HeapMem.mergePrev
  dsimp only
  rw [hring.prev_member]
  rcases List.eq_nil_or_concat pre with rfl | ⟨left, v, hpre⟩
  · have hsentinel := ht.markFree_sentinel (p := p) (by simp)
    refine ⟨_, p, [] ++ p :: post₁, ?_, hj.stays hring (by simp), rfl, rfl,
      hj.occupied_stays hused⟩
    rw [List.getLast?_nil, Option.getD_none, hsentinel]
    rfl
  rw [List.concat_eq_append] at hpre
  subst hpre
  have hvp : v ≠ p := by
    have := ht.around.1 v (by simp)
    unfold sizeofHeapMem at this
    omega
  rw [List.getLast?_concat, Option.getD_some, markFree_of_ne h hvp]
  cases hv : h.used v with
  | true =>
    refine ⟨_, p, _, rfl, hj.stays hring ?_, rfl, rfl, hj.occupied_stays hused⟩
    rw [List.getLast?_concat]
    rintro a ⟨rfl⟩
    exact hv
  | false =>
    exact ⟨_, v, _, rfl, hj.swallowed hring hv, rfl, rfl, hj.occupied_swallowed hused hv⟩

/-- `heap_mem_free` follows the free block if that lies before it. -/
theorem Freed.firstFree {freeMem : Nat} (hf : Freed h bs p h' freeMem bs')
    (hfirst : FirstFree h bs) (hused : h.used p = true) :
    FirstFree (h'.lowerFree freeMem) bs' := by
  have hsame := hf.first
  have hflag : ∀ b, b ≠ p → h'.used b = h.used b := by
    intro b hb
    rw [hf.flags]
    exact markFree_of_ne h hb
  have hbefore : ∀ b ∈ bs', b < h.heapMemFree → b < freeMem → h'.used b = true := by
    intro b hb hlt hlt'
    have hbp : b ≠ p := by
      rintro rfl
      rw [hf.self hb] at hlt'
      exact lt_irrefl _ hlt'
    rw [hflag b hbp]
    exact hfirst.before b (hf.shrinks hb) hlt
  unfold HeapMem.lowerFree
  split
  next hlt =>
    exact ⟨hf.member, hf.unused, fun b hb hb' => hbefore b hb (hb'.trans (hsame ▸ hlt)) hb'⟩
  next hge =>
    rw [hsame] at hge
    have hne : h.heapMemFree ≠ p := by
      intro heq
      have := hfirst.unused
      rw [heq, hused] at this
      cases this
    refine ⟨?_, ?_, ?_⟩
    · rw [hsame]
      by_contra hnot
      have hgone := (hf.gone _ hfirst.member hnot).1
      have hle := hf.le
      omega
    · rw [hsame, hflag _ hne]
      exact hfirst.unused
    · rw [hsame]
      exact fun b hb hb' => hbefore b hb hb' (by omega)

/-- The blocks in use are those of before without `p`. -/
theorem Freed.used_iff {freeMem : Nat} (hf : Freed h bs p h' freeMem bs') (b : Nat) :
    (b ∈ bs' ∧ h'.used b = true) ↔ b ≠ p ∧ b ∈ bs ∧ h.used b = true := by
  constructor
  · rintro ⟨hb, hused⟩
    rw [hf.flags] at hused
    obtain ⟨hne, hused⟩ := used_of_markFree hused
    exact ⟨hne, hf.shrinks hb, hused⟩
  · rintro ⟨hne, hb, hused⟩
    have hused' : h'.used b = true := by
      rw [hf.flags, markFree_of_ne h hne]
      exact hused
    refine ⟨?_, hused'⟩
    by_contra hnot
    rw [(hf.gone b hb hnot).2] at hused'
    cases hused'

theorem Tiled.begin_le (ht : Tiled h bs) (hp : p ∈ bs) : h.heapMemBegin ≤ p := by
  have hfirst := ht.first
  have hsorted := ht.sorted
  cases bs with
  | nil => cases hp
  | cons b bs =>
    cases hfirst
    rcases List.mem_cons.mp hp with rfl | hp
    · exact le_rfl
    · have := (List.pairwise_cons.mp hsorted).1 p hp
      omega

/-- The checks of `free` let a block in use pass. -/
theorem free_eq (ht : Tiled h bs) (hp : p ∈ bs) (hused : h.used p = true) :
    free h (p + sizeofHeapMem) = .ok (h.release p) := by
  have hroomy := ht.roomy p hp hused
  have htop := ht.top
  have hmod := ht.aligned p (by simp [hp])
  have hbegin := ht.begin_le hp
  unfold free
  unfold sizeofHeapMem at *
  have hptr : sub32 (p + 12) 12 = p := by
    rw [sub32_of_le (by omega) (by omega)]
    omega
  have haligned : align (p + 12) = p + 12 := align_of_mod (by omega) (by omega)
  rw [if_neg (by omega), if_neg (by omega), if_neg (not_not.mpr haligned.symm), hptr]
  exact if_neg (not_not.mpr hused)

theorem sameBlocks_lowerFree (h : HeapMem) (freeMem memUsedSize : Nat) :
    SameBlocks h { h.lowerFree freeMem with memUsedSize := memUsedSize } := by
  unfold HeapMem.lowerFree
  split <;> exact ⟨rfl, rfl, rfl, rfl⟩

theorem lowerFree_sizes (h : HeapMem) (freeMem : Nat) :
    (h.lowerFree freeMem).memTotalSize = h.memTotalSize ∧
      (h.lowerFree freeMem).memUsedSize = h.memUsedSize := by
  unfold HeapMem.lowerFree
  split <;> exact ⟨rfl, rfl⟩

/-- `free` takes the extent of the block off `mem_used_size`. -/
structure Counts (h : HeapMem) (bs : List Nat) (p : Nat) (h' : HeapMem) (bs' : List Nat) :
    Prop where
  total : h'.memTotalSize = h.memTotalSize
  used : h'.memUsedSize = sub32 h.memUsedSize (h.links.next p - p)
  bytes : occupied h'.used h'.heapMemEnd bs' + (h.links.next p - p) =
    occupied h.used h.heapMemEnd bs

theorem free_spec (ht : Tiled h bs) (hfirst : FirstFree h bs) (hp : p ∈ bs)
    (hused : h.used p = true) :
    ∃ h' bs', free h (p + sizeofHeapMem) = .ok h' ∧ Tiled h' bs' ∧ FirstFree h' bs' ∧
      (h'.heapMemBegin = h.heapMemBegin ∧ h'.heapMemEnd = h.heapMemEnd) ∧
      Counts h bs p h' bs' ∧
      ∀ b, (b ∈ bs' ∧ h'.used b = true) ↔ b ≠ p ∧ b ∈ bs ∧ h.used b = true := by
  obtain ⟨pre, post, rfl⟩ := List.append_of_mem hp
  obtain ⟨h₁, freeMem, bs', hmerge, hf, htotal, hsize, hbytes⟩ := merge_spec ht hused
  have hfirst' := hf.firstFree hfirst hused
  have hextent : sub32 (h.links.next p) p = h.links.next p - p := by
    obtain ⟨hle, hend⟩ := ht.le_after
    have htop := ht.top
    rw [ht.next]
    unfold sizeofHeapMem at *
    exact sub32_of_le (by omega) (by omega)
  have hrelease : h.release p = { h₁.lowerFree freeMem with
      memUsedSize := sub32 h.memUsedSize (h.links.next p - p) } := by
    unfold HeapMem.release
    dsimp only
    rw [hmerge]
    dsimp only
    rw [(lowerFree_sizes h₁ freeMem).2, hsize, ← hextent]
    rfl
  have hsame := sameBlocks_lowerFree h₁ freeMem (sub32 h.memUsedSize (h.links.next p - p))
  rw [← hrelease] at hsame
  have hend := hsame.bounds.2.trans hf.bounds.2
  refine ⟨_, bs', free_eq ht hp hused, hf.tiled.congr hsame, ?_, ?_, ⟨?_, ?_, ?_⟩, ?_⟩
  · rw [hrelease]
    exact ⟨hfirst'.member, hfirst'.unused, hfirst'.before⟩
  · exact ⟨hsame.bounds.1.trans hf.bounds.1, hend⟩
  · rw [hrelease]
    exact (lowerFree_sizes h₁ freeMem).1.trans htotal
  · rw [hrelease]
  · rw [hsame.used, hend, ht.next]
    exact hbytes
  · rw [hsame.used]
    exact hf.used_iff

end PosixRtos.Heap
