import Mathlib.Tactic
import Mathlib.Order.CompletePartialOrder
import PosixRtos.Heap.Malloc

/-! The block list of the heap. Rooted at the end sentinel, it is a ring of the
headers in the order of their addresses; the sentinel is used, and no two
neighbours are both free. `malloc` puts a header in, `free` takes out up to two. -/
namespace PosixRtos.Heap

open PosixRtos.Library.Rings PosixRtos.Kernel.IntrusiveList

/-- The headers `bs` cut the region into blocks. -/
structure Tiled (h : HeapMem) (bs : List Nat) : Prop where
  ring : h.links.Ring h.heapMemEnd bs
  first : bs.head? = some h.heapMemBegin
  apart : (bs ++ [h.heapMemEnd]).Pairwise fun a b => a + sizeofHeapMem ≤ b
  aligned : ∀ b ∈ bs ++ [h.heapMemEnd], b % 4 = 0
  top : h.heapMemEnd + sizeofHeapMem ≤ 2 ^ 32
  sentinel : h.used h.heapMemEnd = true
  separated : bs.IsChain fun a b => h.used a = true ∨ h.used b = true
  roomy : ∀ b ∈ bs, h.used b = true → b + sizeofHeapMem < h.heapMemEnd

/-- `heap_mem_free` is the first free block. -/
structure FirstFree (h : HeapMem) (bs : List Nat) : Prop where
  member : h.heapMemFree ∈ bs
  unused : h.used h.heapMemFree = false
  before : ∀ b ∈ bs, b < h.heapMemFree → h.used b = true

variable {h : HeapMem} {bs pre post : List Nat} {p size : Nat}

/-- The fields that the invariants read. -/
structure SameBlocks (h h' : HeapMem) : Prop where
  links : h'.links = h.links
  used : h'.used = h.used
  bounds : h'.heapMemBegin = h.heapMemBegin ∧ h'.heapMemEnd = h.heapMemEnd

theorem Tiled.congr (ht : Tiled h bs) {h' : HeapMem} (hsame : SameBlocks h h') : Tiled h' bs := by
  obtain ⟨hlinks, hused, hbegin, hend⟩ := hsame
  constructor
  · rw [hlinks, hend]
    exact ht.ring
  · rw [hbegin]
    exact ht.first
  · rw [hend]
    exact ht.apart
  · rw [hend]
    exact ht.aligned
  · rw [hend]
    exact ht.top
  · rw [hused, hend]
    exact ht.sentinel
  · rw [hused]
    exact ht.separated
  · rw [hused, hend]
    exact ht.roomy

/-! Words. -/

theorem sub32_of_le {a b : Nat} (hba : b ≤ a) (ha : a < 2 ^ 32) : sub32 a b = a - b := by
  unfold sub32 word
  omega

theorem align_mod (size : Nat) : align size % 4 = 0 := by
  unfold align
  omega

theorem requestSize_mod (n : Nat) : requestSize n % 4 = 0 := align_mod _

theorem align_of_mod {a : Nat} (ha : a < 2 ^ 32) (hmod : a % 4 = 0) : align a = a := by
  unfold align word
  omega

/-! Reading the list. -/

/-- The header after `p` when `post` follows it. -/
def HeapMem.after (h : HeapMem) (post : List Nat) : Nat := post.head?.getD h.heapMemEnd

theorem Tiled.lt_end (ht : Tiled h bs) (hp : p ∈ bs) : p + sizeofHeapMem ≤ h.heapMemEnd :=
  (List.pairwise_append.mp ht.apart).2.2 p hp _ (List.mem_singleton_self _)

theorem Tiled.word_payload (ht : Tiled h bs) (hp : p ∈ bs) :
    word (p + sizeofHeapMem) = p + sizeofHeapMem := by
  have hend := ht.lt_end hp
  have htop := ht.top
  unfold sizeofHeapMem at *
  exact Nat.mod_eq_of_lt (by omega)

theorem Tiled.sorted (ht : Tiled h bs) : bs.Pairwise fun a b => a + sizeofHeapMem ≤ b :=
  (List.pairwise_append.mp ht.apart).1

theorem Tiled.ne_end (ht : Tiled h bs) (hp : p ∈ bs) : p ≠ h.heapMemEnd := by
  have := ht.lt_end hp
  unfold sizeofHeapMem at this
  omega

theorem Tiled.nodup (ht : Tiled h bs) : (h.heapMemEnd :: bs).Nodup := by
  refine List.nodup_cons.mpr ⟨fun hmem => ht.ne_end hmem rfl, ht.sorted.imp ?_⟩
  · intro a b hab
    unfold sizeofHeapMem at hab
    omega

/-- The blocks on both sides of a block. -/
theorem Tiled.around (ht : Tiled h (pre ++ p :: post)) :
    (∀ a ∈ pre, a + sizeofHeapMem ≤ p) ∧ (∀ b ∈ post, p + sizeofHeapMem ≤ b) := by
  have hsorted := ht.sorted
  rw [List.pairwise_append, List.pairwise_cons] at hsorted
  exact ⟨fun a ha => hsorted.2.2 a ha p (by simp), hsorted.2.1.1⟩

theorem Tiled.next (ht : Tiled h (pre ++ p :: post)) : h.links.next p = h.after post :=
  ht.ring.next_member

theorem HeapMem.after_mem (h : HeapMem) (post : List Nat) :
    h.after post ∈ post ++ [h.heapMemEnd] := by
  unfold HeapMem.after
  cases post <;> simp

theorem Tiled.le_after (ht : Tiled h (pre ++ p :: post)) :
    p + sizeofHeapMem ≤ h.after post ∧ h.after post ≤ h.heapMemEnd := by
  rcases List.mem_append.mp (h.after_mem post) with hmem | hmem
  · have hend := ht.lt_end (p := h.after post) (by simp [hmem])
    exact ⟨ht.around.2 _ hmem, by omega⟩
  · rw [List.mem_singleton] at hmem
    rw [hmem]
    exact ⟨ht.lt_end (by simp), le_rfl⟩

theorem Tiled.memLen_eq (ht : Tiled h (pre ++ p :: post)) :
    h.memLen p = h.after post - p - sizeofHeapMem := by
  obtain ⟨hle, hend⟩ := ht.le_after
  have htop := ht.top
  unfold HeapMem.memLen
  unfold sizeofHeapMem at *
  have hsize : sub32 (h.after post) p = h.after post - p := sub32_of_le (by omega) (by omega)
  rw [ht.next, hsize, sub32_of_le (by omega) (by omega)]

/-- There are fewer blocks than addresses. -/
theorem Tiled.length_lt (ht : Tiled h bs) : bs.length < addresses := by
  have htop := ht.top
  have hsub : bs ⊆ List.range h.heapMemEnd := by
    intro b hb
    have := ht.lt_end hb
    unfold sizeofHeapMem at this
    exact List.mem_range.mpr (by omega)
  have hlength := ((List.nodup_cons.mp ht.nodup).2.subperm hsub).length_le
  rw [List.length_range] at hlength
  unfold addresses
  unfold sizeofHeapMem at htop
  omega

/-! The blocks as a function of the heap. -/

/-- The headers from `memPtr` to the sentinel. -/
def HeapMem.blocksFrom (h : HeapMem) : Nat → Nat → List Nat
  | 0, _ => []
  | fuel + 1, memPtr =>
      if memPtr = h.heapMemEnd then [] else memPtr :: h.blocksFrom fuel (h.links.next memPtr)

def HeapMem.blocks (h : HeapMem) : List Nat := h.blocksFrom addresses h.heapMemBegin

theorem blocksFrom_eq (fuel : Nat) (ht : Tiled h (pre ++ post)) (hfuel : post.length < fuel) :
    h.blocksFrom fuel (h.after post) = post := by
  induction post generalizing pre fuel with
  | nil =>
    obtain ⟨fuel, rfl⟩ := Nat.exists_eq_succ_of_ne_zero hfuel.ne'
    simp [HeapMem.blocksFrom, HeapMem.after]
  | cons b post ih =>
    obtain ⟨fuel, rfl⟩ := Nat.exists_eq_succ_of_ne_zero (Nat.ne_zero_of_lt hfuel)
    have hend := ht.ne_end (p := b) (by simp)
    change h.blocksFrom (fuel + 1) b = _
    rw [HeapMem.blocksFrom, if_neg hend, ht.next]
    rw [List.append_cons] at ht
    rw [ih fuel ht (Nat.lt_of_succ_lt_succ hfuel)]

theorem Tiled.blocks_eq (ht : Tiled h bs) : h.blocks = bs := by
  have hwalk := blocksFrom_eq addresses (show Tiled h ([] ++ bs) from ht) ht.length_lt
  have hstart : h.after bs = h.heapMemBegin := by
    unfold HeapMem.after
    rw [ht.first, Option.getD_some]
  rwa [hstart] at hwalk

/-! The bytes of the used blocks. -/

/-- The distances from the used ones of these headers to the next header, where
`last` follows them. -/
def occupied (used : Nat → Bool) (last : Nat) : List Nat → Nat
  | [] => 0
  | b :: rest => (if used b then rest.head?.getD last - b else 0) + occupied used last rest

theorem occupied_append (used : Nat → Bool) (last c : Nat) (pre post : List Nat) :
    occupied used last (pre ++ c :: post) =
      occupied used c pre + occupied used last (c :: post) := by
  induction pre with
  | nil => exact (Nat.zero_add _).symm
  | cons b pre ih =>
    have hhead : (pre ++ c :: post).head?.getD last = pre.head?.getD c := by cases pre <;> rfl
    rw [List.cons_append, occupied, ih, hhead, ← Nat.add_assoc]
    rfl

theorem occupied_congr {used used' : Nat → Bool} (last : Nat)
    (hflags : ∀ b ∈ bs, used' b = used b) :
    occupied used' last bs = occupied used last bs := by
  induction bs with
  | nil => rfl
  | cons b bs ih =>
    rw [occupied, occupied, hflags b (by simp), ih fun c hc => hflags c (.tail b hc)]

/-- Around a block `p`, seen with other flags that differ at `p` at most. -/
theorem occupied_around {used used' : Nat → Bool} (last : Nat)
    (hflags : ∀ b ∈ pre ++ post, used' b = used b) :
    occupied used' last (pre ++ p :: post) =
      occupied used p pre + ((if used' p then post.head?.getD last - p else 0) +
        occupied used last post) := by
  rw [occupied_append, occupied, occupied_congr p fun b hb => hflags b (List.mem_append_left _ hb),
    occupied_congr last fun b hb => hflags b (List.mem_append_right _ hb)]

theorem occupied_le {last : Nat} (used : Nat → Bool)
    (hsorted : (bs ++ [last]).Pairwise (· ≤ ·)) :
    occupied used last bs ≤ last - bs.head?.getD last := by
  induction bs with
  | nil => exact Nat.zero_le _
  | cons b bs ih =>
    rw [List.cons_append, List.pairwise_cons] at hsorted
    have hrest := ih hsorted.2
    have hhead : b ≤ bs.head?.getD last ∧ bs.head?.getD last ≤ last := by
      cases bs with
      | nil => exact ⟨hsorted.1 last (by simp), le_rfl⟩
      | cons c bs =>
        exact ⟨hsorted.1 c (by simp), (List.pairwise_cons.mp hsorted.2).1 last (by simp)⟩
    rw [occupied, List.head?_cons, Option.getD_some]
    split <;> omega

/-- The extents of the used blocks. -/
def HeapMem.usedBytes (h : HeapMem) : Nat :=
  ((h.blocks.filter fun b => h.used b).map fun b => h.links.next b - b).sum

theorem Tiled.extents_eq (ht : Tiled h (pre ++ post)) :
    ((post.filter fun b => h.used b).map fun b => h.links.next b - b).sum =
      occupied h.used h.heapMemEnd post := by
  induction post generalizing pre with
  | nil => rfl
  | cons b post ih =>
    have hnext := ht.next
    rw [List.append_cons] at ht
    rw [occupied, ← ih ht, List.filter_cons]
    cases hused : h.used b with
    | true => simp [hnext, HeapMem.after]
    | false => simp

theorem Tiled.usedBytes_eq (ht : Tiled h bs) :
    h.usedBytes = occupied h.used h.heapMemEnd bs := by
  unfold HeapMem.usedBytes
  rw [ht.blocks_eq]
  exact Tiled.extents_eq (show Tiled h ([] ++ bs) from ht)

/-! The two loops of `malloc`. -/

/-- A free block that is longer than `size`. -/
def HeapMem.Fits (h : HeapMem) (size b : Nat) : Prop := h.used b = false ∧ size < h.memLen b

instance (h : HeapMem) (size b : Nat) : Decidable (h.Fits size b) :=
  inferInstanceAs (Decidable (_ ∧ _))

/-- The search ends, and is a first fit. The induction is on the blocks still to
be visited. -/
theorem findBlock_eq (size fuel : Nat) (ht : Tiled h (pre ++ post))
    (hfuel : post.length < fuel) :
    h.findBlock size fuel (h.after post) = .ok (post.find? fun b => h.Fits size b) := by
  induction post generalizing pre fuel with
  | nil =>
    obtain ⟨fuel, rfl⟩ := Nat.exists_eq_succ_of_ne_zero hfuel.ne'
    simp [HeapMem.findBlock, HeapMem.after]
  | cons b post ih =>
    obtain ⟨fuel, rfl⟩ := Nat.exists_eq_succ_of_ne_zero (Nat.ne_zero_of_lt hfuel)
    have hend := ht.ne_end (p := b) (by simp)
    change h.findBlock size (fuel + 1) b = _
    rw [HeapMem.findBlock, if_neg hend]
    split
    next hfits =>
      have hfit : h.Fits size b := hfits
      rw [List.find?_cons, decide_eq_true hfit]
    next hfits =>
      have hnot : ¬ h.Fits size b := hfits
      rw [List.find?_cons, decide_eq_false hnot, ht.next]
      rw [List.append_cons] at ht
      exact ih fuel ht (Nat.lt_of_succ_lt_succ hfuel)

/-- The loop over the used blocks stops at the first free one, or at the end. -/
theorem skipUsed_spec (fuel : Nat) (ht : Tiled h (pre ++ post)) (hfuel : post.length < fuel) :
    ∃ p, h.skipUsed fuel (h.after post) = .ok p ∧
      (p = h.heapMemEnd ∧ (∀ b ∈ post, h.used b = true) ∨
        p ∈ post ∧ h.used p = false ∧ ∀ b ∈ post, b < p → h.used b = true) := by
  induction post generalizing pre fuel with
  | nil =>
    obtain ⟨fuel, rfl⟩ := Nat.exists_eq_succ_of_ne_zero hfuel.ne'
    exact ⟨h.heapMemEnd, by simp [HeapMem.skipUsed, HeapMem.after], .inl ⟨rfl, by simp⟩⟩
  | cons b post ih =>
    obtain ⟨fuel, rfl⟩ := Nat.exists_eq_succ_of_ne_zero (Nat.ne_zero_of_lt hfuel)
    have hend := ht.ne_end (p := b) (by simp)
    have hafter := ht.around.2
    change ∃ p, h.skipUsed (fuel + 1) b = _ ∧ _
    rw [HeapMem.skipUsed]
    split
    next hused =>
      rw [ht.next]
      rw [List.append_cons] at ht
      obtain ⟨p, hp, hfacts⟩ := ih fuel ht (Nat.lt_of_succ_lt_succ hfuel)
      refine ⟨p, hp, hfacts.imp (fun ⟨hlast, hall⟩ => ⟨hlast, ?_⟩)
        fun ⟨hmem, hfree, hbefore⟩ => ⟨.tail b hmem, hfree, ?_⟩⟩
      · exact List.forall_mem_cons.mpr ⟨hused.1, hall⟩
      · intro c hc hcp
        rcases List.mem_cons.mp hc with rfl | hc
        · exact hused.1
        · exact hbefore c hc hcp
    next hfree =>
      refine ⟨b, rfl, .inr ⟨by simp, by simpa [hend] using hfree, ?_⟩⟩
      intro c hc hcb
      rcases List.mem_cons.mp hc with rfl | hc
      · exact absurd hcb (lt_irrefl _)
      · have := hafter c hc
        omega

/-! Neighbours. -/

/-- A chain seen from one of its members. -/
theorem isChain_around {R : Nat → Nat → Prop} :
    (pre ++ p :: post).IsChain R ↔
      (pre.IsChain R ∧ ∀ a ∈ pre.getLast?, R a p) ∧ (∀ b ∈ post.head?, R p b) ∧ post.IsChain R := by
  rw [List.isChain_append, List.isChain_cons]
  simp
  tauto

/-- Around a free block the neighbours are used. -/
theorem Tiled.neighbours_used (ht : Tiled h (pre ++ p :: post)) (hp : h.used p = false) :
    (∀ a ∈ pre.getLast?, h.used a = true) ∧ ∀ b ∈ post.head?, h.used b = true := by
  obtain ⟨⟨-, hleft⟩, hright, -⟩ := isChain_around.mp ht.separated
  exact ⟨fun a ha => (hleft a ha).resolve_right (by simp [hp]),
    fun b hb => (hright b hb).resolve_left (by simp [hp])⟩

/-- Whether neighbours are both free depends on the flags of the blocks only. -/
theorem separated_congr {u u' : Nat → Bool} (hsep : bs.IsChain fun a b => u a = true ∨ u b = true)
    (heq : ∀ b ∈ bs, u' b = u b) : bs.IsChain fun a b => u' a = true ∨ u' b = true := by
  have hflags : (bs.map u').IsChain fun a b => a = true ∨ b = true := by
    rw [List.map_congr_left heq]
    exact (List.isChain_map u).mpr hsep
  exact (List.isChain_map u').mp hflags

/-! Taking a block. -/

/-- The block `p` has become used; behind it a free block may have been cut off. -/
structure Taken (h : HeapMem) (bs : List Nat) (p : Nat) (h' : HeapMem) (bs' : List Nat) : Prop where
  tiled : Tiled h' bs'
  keeps : bs ⊆ bs'
  taken : h'.used p = true
  others : ∀ b ∈ bs, b ≠ p → h'.used b = h.used b
  cut : ∀ b ∈ bs', b ∉ bs → p < b ∧ h'.used b = false
  bounds : h'.heapMemBegin = h.heapMemBegin ∧ h'.heapMemEnd = h.heapMemEnd

theorem Tiled.after_le (ht : Tiled h (pre ++ p :: post)) :
    ∀ b ∈ post ++ [h.heapMemEnd], h.after post ≤ b := by
  intro b hb
  cases post with
  | nil =>
    rw [List.nil_append, List.mem_singleton] at hb
    rw [hb]
    rfl
  | cons n post =>
    have hapart := ht.apart
    rw [show pre ++ p :: n :: post ++ [h.heapMemEnd] = (pre ++ [p]) ++ n :: (post ++ [h.heapMemEnd])
      by simp, List.pairwise_append, List.pairwise_cons] at hapart
    change n ≤ b
    rcases List.mem_cons.mp hb with rfl | hb
    · exact le_rfl
    · have := hapart.2.1.1 b hb
      omega

/-- The whole block is taken. -/
theorem markUsed_spec (ht : Tiled h (pre ++ p :: post)) (hfits : size < h.memLen p) :
    Taken h (pre ++ p :: post) p (h.markUsed p size) (pre ++ p :: post) := by
  obtain ⟨hle, hend⟩ := ht.le_after
  rw [ht.memLen_eq] at hfits
  have hother : ∀ b, b ≠ p → (h.markUsed p size).used b = h.used b :=
    fun b hb => Function.update_of_ne hb _ _
  have hself : (h.markUsed p size).used p = true := Function.update_self ..
  obtain ⟨hleft, hright⟩ := ht.around
  have hpre : ∀ b ∈ pre, (h.markUsed p size).used b = h.used b := by
    intro b hb
    have := hleft b hb
    exact hother b (by unfold sizeofHeapMem at this; omega)
  have hpost : ∀ b ∈ post, (h.markUsed p size).used b = h.used b := by
    intro b hb
    have := hright b hb
    exact hother b (by unfold sizeofHeapMem at this; omega)
  refine ⟨⟨ht.ring, ht.first, ht.apart, ht.aligned, ht.top, ?_, ?_, ?_⟩, List.Subset.refl _, hself,
    fun b _ => hother b, fun b hb hnot => absurd hb hnot, rfl, rfl⟩
  · exact (hother _ (ht.ne_end (p := p) (by simp)).symm).trans ht.sentinel
  · obtain ⟨⟨hsepl, -⟩, -, hsepr⟩ := isChain_around.mp ht.separated
    exact isChain_around.mpr ⟨⟨separated_congr hsepl hpre, fun _ _ => .inr hself⟩,
      fun _ _ => .inl hself, separated_congr hsepr hpost⟩
  · intro b hb hused
    by_cases hbp : b = p
    · subst hbp
      change b + sizeofHeapMem < h.heapMemEnd
      omega
    · exact ht.roomy b hb (by rwa [hother b hbp] at hused)

/-- The header `q` goes in behind `p`. -/
theorem ring_insert_behind {links : Links Nat} {root q : Nat}
    (hr : links.Ring root (pre ++ p :: post)) (hnodup : (root :: (pre ++ p :: post)).Nodup)
    (hq : q ∉ root :: (pre ++ p :: post)) :
    (listInsertHead (listInit links q) p q).Ring root (pre ++ p :: q :: post) := by
  have hinit : (listInit links q).Ring root (pre ++ p :: post) := by
    have hne : ∀ x ∈ root :: (pre ++ p :: post), x ≠ q := fun x hx hxq => hq (hxq ▸ hx)
    exact hr.transport (fun x hx => Function.update_of_ne (hne x hx) _ _)
      (fun x hx => Function.update_of_ne (hne x hx) _ _)
  have hchain := ring_listInsertHead hinit hnodup hq
    (show root :: (pre ++ p :: post) = (root :: pre) ++ p :: post from rfl)
  simpa [Links.Ring] using hchain

theorem pairwise_behind {R : Nat → Nat → Prop} {q : Nat} (hbs : (pre ++ p :: post).Pairwise R)
    (hp : R p q) (hright : ∀ b ∈ post, R q b) (hleft : ∀ a ∈ pre, R a q) :
    (pre ++ p :: q :: post).Pairwise R := by
  rw [List.pairwise_append, List.pairwise_cons] at hbs ⊢
  obtain ⟨hpre, ⟨hppost, hpost⟩, hcross⟩ := hbs
  refine ⟨hpre, ⟨?_, List.pairwise_cons.mpr ⟨hright, hpost⟩⟩, ?_⟩
  · intro b hb
    rcases List.mem_cons.mp hb with rfl | hb
    · exact hp
    · exact hppost b hb
  · intro a ha b hb
    simp only [List.mem_cons] at hb
    rcases hb with rfl | rfl | hb
    · exact hcross a ha b (by simp)
    · exact hleft a ha
    · exact hcross a ha b (.tail p hb)

theorem mem_behind {b q : Nat} : b ∈ pre ++ p :: q :: post ↔ b = q ∨ b ∈ pre ++ p :: post := by
  simp only [List.mem_append, List.mem_cons]
  tauto

/-- The new header lies inside the block, and leaves room for itself. -/
theorem Tiled.cut_inside (ht : Tiled h (pre ++ p :: post)) (hfits : size < h.memLen p)
    (hsplit : sizeofHeapMem + mallocMinSize < sub32 (h.memLen p) size) :
    word (p + size + sizeofHeapMem) = p + size + sizeofHeapMem ∧
      p + size + sizeofHeapMem + sizeofHeapMem ≤ h.after post := by
  obtain ⟨hle, hend⟩ := ht.le_after
  have htop := ht.top
  rw [ht.memLen_eq] at hfits hsplit
  unfold sizeofHeapMem mallocMinSize at *
  rw [sub32_of_le hfits.le (by omega)] at hsplit
  exact ⟨Nat.mod_eq_of_lt (by omega), by omega⟩

/-- In `h'` the block `p` is used and a free block starts at `q`, inside of the
old one. -/
structure Cut (h : HeapMem) (pre : List Nat) (p q : Nat) (post : List Nat) (h' : HeapMem) :
    Prop where
  tiled : Tiled h (pre ++ p :: post)
  behind : p + sizeofHeapMem ≤ q
  room : ∀ b ∈ post ++ [h.heapMemEnd], q + sizeofHeapMem ≤ b
  aligned : q % 4 = 0
  links : h'.links = listInsertHead (listInit h.links q) p q
  self : h'.used p = true
  unused : h'.used q = false
  other : ∀ b, b ≠ p → b ≠ q → h'.used b = h.used b
  bounds : h'.heapMemBegin = h.heapMemBegin ∧ h'.heapMemEnd = h.heapMemEnd

theorem splitBlock_cut (ht : Tiled h (pre ++ p :: post)) (hsize : size % 4 = 0)
    (hfits : size < h.memLen p)
    (hsplit : sizeofHeapMem + mallocMinSize < sub32 (h.memLen p) size) :
    Cut h pre p (p + size + sizeofHeapMem) post ((h.splitBlock p size).markUsed p size) := by
  obtain ⟨hword, hroom⟩ := ht.cut_inside hfits hsplit
  have hheader : sizeofHeapMem = 12 := rfl
  have hsplitBlock : h.splitBlock p size = { h with
      used := Function.update h.used (p + size + sizeofHeapMem) false
      links := listInsertHead (listInit h.links (p + size + sizeofHeapMem)) p
        (p + size + sizeofHeapMem) } := by
    unfold HeapMem.splitBlock
    rw [if_pos hsplit, hword]
  rw [hsplitBlock]
  refine ⟨ht, by omega, fun b hb => hroom.trans (ht.after_le b hb), ?_, rfl,
    Function.update_self .., ?_, ?_, rfl, rfl⟩
  · have hp := ht.aligned p (by simp)
    omega
  · exact (Function.update_of_ne (by omega) _ _).trans (Function.update_self ..)
  · intro b hbp hbq
    exact (Function.update_of_ne hbp _ _).trans (Function.update_of_ne hbq _ _)

variable {h' : HeapMem} {bs' : List Nat} {q : Nat}

theorem Cut.fresh (hcut : Cut h pre p q post h') : q ∉ h.heapMemEnd :: (pre ++ p :: post) := by
  have hheader : sizeofHeapMem = 12 := rfl
  have hbehind := hcut.behind
  intro hmem
  simp only [List.mem_cons, List.mem_append] at hmem
  rcases hmem with hmem | hmem | hmem | hmem
  · have := hcut.room h.heapMemEnd (by simp)
    omega
  · have := hcut.tiled.around.1 q hmem
    omega
  · omega
  · have := hcut.room q (by simp [hmem])
    omega

theorem Cut.old (hcut : Cut h pre p q post h') {b : Nat}
    (hb : b ∈ h.heapMemEnd :: (pre ++ p :: post)) (hbp : b ≠ p) : h'.used b = h.used b :=
  hcut.other b hbp fun hbq => hcut.fresh (hbq ▸ hb)

/-- The block that follows the free rest was the neighbour of a free block. -/
theorem Cut.separated (hcut : Cut h pre p q post h') (hfree : h.used p = false) :
    (pre ++ p :: q :: post).IsChain fun a b => h'.used a = true ∨ h'.used b = true := by
  have hheader : sizeofHeapMem = 12 := rfl
  obtain ⟨hleft, hright⟩ := hcut.tiled.around
  have hpre : ∀ b ∈ pre, h'.used b = h.used b := by
    intro b hb
    have := hleft b hb
    exact hcut.old (by simp [hb]) (by omega)
  have hpost : ∀ b ∈ post, h'.used b = h.used b := by
    intro b hb
    have := hright b hb
    exact hcut.old (by simp [hb]) (by omega)
  obtain ⟨⟨hsepl, -⟩, -, hsepr⟩ := isChain_around.mp hcut.tiled.separated
  refine isChain_around.mpr ⟨⟨separated_congr hsepl hpre, fun _ _ => .inr hcut.self⟩,
    fun _ _ => .inl hcut.self, ?_⟩
  refine List.isChain_cons.mpr ⟨fun b hb => .inr ?_, separated_congr hsepr hpost⟩
  rw [hpost b (List.mem_of_mem_head? hb)]
  exact (hcut.tiled.neighbours_used hfree).2 b hb

theorem Cut.retiled (hcut : Cut h pre p q post h') (hfree : h.used p = false) :
    Tiled h' (pre ++ p :: q :: post) := by
  have ht := hcut.tiled
  have hheader : sizeofHeapMem = 12 := rfl
  obtain ⟨hbegin, hend⟩ := hcut.bounds
  have hbehind := hcut.behind
  refine ⟨?_, ?_, ?_, ?_, hend ▸ ht.top, ?_, hcut.separated hfree, ?_⟩
  · rw [hcut.links, hend]
    exact ring_insert_behind ht.ring ht.nodup hcut.fresh
  · rw [hbegin, ← ht.first]
    cases pre <;> rfl
  · rw [hend, List.append_assoc]
    refine pairwise_behind (by simpa using ht.apart) hbehind hcut.room fun a ha => ?_
    have := ht.around.1 a ha
    omega
  · rw [hend]
    intro b hb
    rw [List.append_assoc, List.cons_append, List.cons_append, mem_behind] at hb
    rcases hb with rfl | hb
    · exact hcut.aligned
    · exact ht.aligned b (by simpa using hb)
  · rw [hend]
    exact (hcut.old (by simp) (ht.ne_end (p := p) (by simp)).symm).trans ht.sentinel
  · rw [hend]
    intro b hb hused
    rcases mem_behind.mp hb with rfl | hb
    · rw [hcut.unused] at hused
      cases hused
    by_cases hbp : b = p
    · have := hcut.room h.heapMemEnd (by simp)
      omega
    · rw [hcut.old (.tail _ hb) hbp] at hused
      exact ht.roomy b hb hused

/-- The rest of the block is cut off. -/
theorem Cut.taken (hcut : Cut h pre p q post h') (hfree : h.used p = false) :
    Taken h (pre ++ p :: post) p h' (pre ++ p :: q :: post) where
  tiled := hcut.retiled hfree
  keeps b hb := mem_behind.mpr (.inr hb)
  taken := hcut.self
  others b hb := hcut.old (.tail _ hb)
  cut b hb hnot := by
    obtain rfl := (mem_behind.mp hb).resolve_right hnot
    have hbehind := hcut.behind
    unfold sizeofHeapMem at hbehind
    exact ⟨by omega, hcut.unused⟩
  bounds := hcut.bounds

theorem take_spec (ht : Tiled h bs) (hp : p ∈ bs) (hfree : h.used p = false)
    (hsize : size % 4 = 0) (hfits : size < h.memLen p) :
    ∃ bs', Taken h bs p ((h.splitBlock p size).markUsed p size) bs' := by
  obtain ⟨pre, post, rfl⟩ := List.append_of_mem hp
  by_cases hsplit : sizeofHeapMem + mallocMinSize < sub32 (h.memLen p) size
  · exact ⟨_, (splitBlock_cut ht hsize hfits hsplit).taken hfree⟩
  · have hwhole : h.splitBlock p size = h := if_neg hsplit
    rw [hwhole]
    exact ⟨_, markUsed_spec ht hfits⟩

theorem heapMemFree_markUsed (h : HeapMem) (p size : Nat) :
    ((h.splitBlock p size).markUsed p size).heapMemFree = h.heapMemFree := by
  unfold HeapMem.splitBlock
  split <;> rfl

/-- Before `p` nothing has changed. -/
theorem Taken.used_before (htake : Taken h bs p h' bs') (hfirst : FirstFree h bs)
    (hfree : h.used p = false) (hp : p ∈ bs) :
    ∀ b ∈ bs', b < h.heapMemFree ∨ b < p ∧ p = h.heapMemFree → h'.used b = true := by
  intro b hb hbefore
  have hple : h.heapMemFree ≤ p := by
    by_contra hlt
    rw [hfirst.before p hp (not_le.mp hlt)] at hfree
    cases hfree
  have hbp : b < p := by omega
  have hold : b ∈ bs := by
    by_contra hnot
    exact absurd (htake.cut b hb hnot).1 (by omega)
  rw [htake.others b hold (by omega)]
  exact hfirst.before b hold (by omega)

/-- `heap_mem_free` stays, unless it was the block that is taken. -/
theorem Taken.firstFree (htake : Taken h bs p h' bs') (hfirst : FirstFree h bs)
    (hfree : h.used p = false) (hp : p ∈ bs) (hsame : h'.heapMemFree = h.heapMemFree)
    (hne : h'.heapMemFree ≠ p) : FirstFree h' bs' := by
  have hbefore := htake.used_before hfirst hfree hp
  rw [hsame] at hne
  refine ⟨?_, ?_, ?_⟩
  · rw [hsame]
    exact htake.keeps hfirst.member
  · rw [hsame, htake.others _ hfirst.member hne]
    exact hfirst.unused
  · rw [hsame]
    exact fun b hb hlt => hbefore b hb (.inl hlt)

theorem sameBlocks_advance (h : HeapMem) (q : Nat) : SameBlocks h { h with heapMemFree := q } :=
  ⟨rfl, rfl, rfl, rfl⟩

theorem Taken.advance (htake : Taken h bs p h' bs') (q : Nat) :
    Taken h bs p { h' with heapMemFree := q } bs' :=
  ⟨htake.tiled.congr (sameBlocks_advance h' q), htake.keeps, htake.taken, htake.others, htake.cut,
    htake.bounds⟩

/-- The loop behind a block that was the first free one ends at the next free
block, or the assertion fails because there is none. -/
theorem Taken.advanceFree (htake : Taken h bs p h' bs') (hfirst : FirstFree h bs)
    (hfree : h.used p = false) (hp : p ∈ bs) (hsame : h'.heapMemFree = h.heapMemFree)
    (heq : h'.heapMemFree = p) :
    (h'.advanceFree = .error .assertion ∧ ∀ b ∈ bs', h'.used b = true) ∨
      ∃ q, h'.advanceFree = .ok { h' with heapMemFree := q } ∧
        FirstFree { h' with heapMemFree := q } bs' := by
  obtain ⟨pre, post, hsplit⟩ := List.append_of_mem (htake.keeps hp)
  have htiled : Tiled h' (pre ++ p :: post) := hsplit ▸ htake.tiled
  have hlength := htiled.length_lt
  obtain ⟨q, hskip, hq⟩ := skipUsed_spec addresses htiled (by
    rw [List.length_append] at hlength
    omega)
  have hstart : h'.after (p :: post) = h'.heapMemFree := heq.symm
  rw [hstart] at hskip
  have hcall : h'.advanceFree = if h'.used q = true ∨ q = h'.heapMemEnd then .error .assertion
      else .ok { h' with heapMemFree := q } := by
    unfold HeapMem.advanceFree
    rw [hskip]
    rfl
  rcases hq with ⟨hend, hall⟩ | ⟨hmem, hunused, hskipped⟩
  · refine .inl ⟨hcall.trans (if_pos (.inr hend)), fun b hb => ?_⟩
    rcases List.mem_append.mp (hsplit ▸ hb) with hpre | hpost
    · have hbp := htiled.around.1 b hpre
      have hheader : sizeofHeapMem = 12 := rfl
      exact htake.used_before hfirst hfree hp b hb
        (.inr ⟨by omega, by rw [← hsame, heq]⟩)
    · exact hall b hpost
  have hin : q ∈ pre ++ p :: post := List.mem_append_right _ hmem
  refine .inr ⟨q, hcall.trans (if_neg ?_), hsplit ▸ hin, hunused, ?_⟩
  · rintro (hused | hend)
    · rw [hunused] at hused
      cases hused
    · exact htiled.ne_end hin hend
  · intro b hb hlt
    rcases List.mem_append.mp (hsplit ▸ hb) with hpre | hpost
    · have hbp := htiled.around.1 b hpre
      have hheader : sizeofHeapMem = 12 := rfl
      exact htake.used_before hfirst hfree hp b hb
        (.inr ⟨by omega, by rw [← hsame, heq]⟩)
    · exact hskipped b hpost hlt

/-- The block is taken, unless it was the last free one. -/
theorem takeBlock_spec (hfirst : FirstFree h bs) (hp : p ∈ bs) (hfree : h.used p = false)
    (htake : Taken h bs p ((h.splitBlock p size).markUsed p size) bs') :
    (h.takeBlock p size = .error .assertion ∧
        ∀ b ∈ bs', ((h.splitBlock p size).markUsed p size).used b = true) ∨
      ∃ h', h.takeBlock p size = .ok h' ∧ Taken h bs p h' bs' ∧ FirstFree h' bs' ∧
        SameBlocks ((h.splitBlock p size).markUsed p size) h' := by
  have hsame := heapMemFree_markUsed h p size
  unfold HeapMem.takeBlock
  generalize (h.splitBlock p size).markUsed p size = h₁ at htake hsame ⊢
  dsimp only
  by_cases heq : h₁.heapMemFree = p
  · rw [if_pos heq]
    rcases htake.advanceFree hfirst hfree hp hsame heq with hfail | ⟨q, hcall, hfirst'⟩
    · exact .inl hfail
    · exact .inr ⟨_, hcall, htake.advance q, hfirst', sameBlocks_advance h₁ q⟩
  · rw [if_neg heq]
    exact .inr ⟨h₁, rfl, htake, htake.firstFree hfirst hfree hp hsame heq, rfl, rfl, rfl, rfl⟩

/-- `malloc` finds no room, or takes a block, or stops at its assertion. -/
inductive Allocates (h : HeapMem) (bs : List Nat) : Except Fault (HeapMem × Option Nat) → Prop
  | refused : Allocates h bs (.ok (h, none))
  | took (p : Nat) {h' : HeapMem} {bs' : List Nat} (hp : p ∈ bs) (hfree : h.used p = false)
      (htake : Taken h bs p h' bs') (hfirst : FirstFree h' bs') :
      Allocates h bs (.ok (h', some (p + sizeofHeapMem)))
  | failed : Allocates h bs (.error .assertion)

theorem allocate_spec (ht : Tiled h bs) (hfirst : FirstFree h bs) (hsize : size % 4 = 0)
    {found : Option Nat} (hfound : ∀ p ∈ found, p ∈ bs ∧ h.Fits size p) :
    Allocates h bs (h.allocate size found) := by
  cases found with
  | none => exact .refused
  | some p =>
    obtain ⟨hp, hfree, hfits⟩ := hfound p rfl
    rw [HeapMem.allocate, ht.word_payload hp]
    obtain ⟨bs', htake⟩ := take_spec ht hp hfree hsize hfits
    rcases takeBlock_spec hfirst hp hfree htake with ⟨hfail, -⟩ | ⟨h', hcall, htake, hfirst', -⟩
    · rw [hfail]
      exact .failed
    · rw [hcall]
      exact .took p hp hfree htake hfirst'

/-- `malloc` refuses what exceeds the free total, and takes the first block that
fits; before `heap_mem_free` there is none. -/
theorem malloc_eq (ht : Tiled h bs) (hfirst : FirstFree h bs) (n : Nat) :
    malloc h n = if n = 0 ∨ sub32 h.memTotalSize h.memUsedSize < requestSize n then .ok (h, none)
      else h.allocate (requestSize n) (bs.find? fun b => h.Fits (requestSize n) b) := by
  obtain ⟨pre, post, hsplit⟩ := List.append_of_mem hfirst.member
  subst hsplit
  have hlength := ht.length_lt
  have hfound := findBlock_eq (requestSize n) addresses ht (by
    rw [List.length_append] at hlength
    omega)
  have hstart : h.after (h.heapMemFree :: post) = h.heapMemFree := rfl
  rw [hstart] at hfound
  have hpre : pre.find? (fun b => h.Fits (requestSize n) b) = none := by
    refine List.find?_eq_none.mpr fun b hb => ?_
    have hlt := ht.around.1 b hb
    have hheader : sizeofHeapMem = 12 := rfl
    have hused := hfirst.before b (List.mem_append_left _ hb) (by omega)
    simp [HeapMem.Fits, hused]
  rw [List.find?_append, hpre, Option.none_or]
  unfold malloc
  by_cases hzero : n = 0
  · rw [if_pos hzero, if_pos (.inl hzero)]
  rw [if_neg hzero]
  dsimp only
  by_cases htotal : sub32 h.memTotalSize h.memUsedSize < requestSize n
  · rw [if_pos htotal, if_pos (.inr htotal)]
  · rw [if_neg htotal, if_neg (not_or.mpr ⟨hzero, htotal⟩), hfound]
    rfl

theorem malloc_spec (ht : Tiled h bs) (hfirst : FirstFree h bs) (n : Nat) :
    Allocates h bs (malloc h n) := by
  rw [malloc_eq ht hfirst]
  split
  · exact .refused
  · refine allocate_spec ht hfirst (requestSize_mod n) fun p hp => ?_
    exact ⟨List.mem_of_find?_eq_some hp, by simpa using List.find?_some hp⟩

end PosixRtos.Heap
