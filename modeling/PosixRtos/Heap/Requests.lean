import PosixRtos.Heap.History
import PosixRtos.Library.ByteMemory

/-! What a request gets. `malloc` rounds the size up in 32-bit arithmetic, so a
request at the very top becomes one for nothing; and it insists that a free block
is left over. -/
namespace PosixRtos.Heap

open PosixRtos.Library.Rings PosixRtos.Library.Runs PosixRtos.Library.ByteMemory
open PosixRtos.Kernel.IntrusiveList

/-- `memset` of `string.c`; the pointer is a word. -/
def memset (memory : Memory) (src : Nat) (ch : Byte) : Nat → Memory
  | 0 => memory
  | count + 1 => memset (Function.update memory src ch) (word (src + 1)) ch count

def zalloc (h : HeapMem) (memory : Memory) (size : Nat) :
    Except Fault (HeapMem × Memory × Option Nat) := do
  let (h, p) ← malloc h size
  match p with
  | none => .ok (h, memory, none)
  | some p => .ok (h, memset memory p 0 size, some p)

/-- The `n` bytes from `mem` on lie in the region and in the block of `mem`, and
in no other live block and no header. -/
structure Contains (h : HeapMem) (live bs : List Nat) (mem n : Nat) : Prop where
  region : mem + n ≤ h.heapMemEnd
  block : Set.Ico mem (mem + n) ⊆ h.extent mem
  others : ∀ other ∈ live, other ≠ mem → Disjoint (Set.Ico mem (mem + n)) (h.extent other)
  headers : ∀ b ∈ bs ++ [h.heapMemEnd],
    Disjoint (Set.Ico b (b + sizeofHeapMem)) (Set.Ico mem (mem + n))

/-- `malloc` returns, and what it returns is NULL or holds `n` bytes. -/
def MallocGives (s : Allocator) (n : Nat) : Prop :=
  ∃ h p, malloc s.heap n = .ok (h, p) ∧
    ∀ mem ∈ p, ∃ bs, WellFormed h (mem :: s.live) bs ∧ Contains h (mem :: s.live) bs mem n

/-- `zalloc` returns, and changes no byte outside of the block it returns. -/
def ZallocStaysInside (s : Allocator) (n : Nat) : Prop :=
  ∀ memory, ∃ h memory' p, zalloc s.heap memory n = .ok (h, memory', p) ∧
    ∀ x, memory' x ≠ memory x → ∃ mem ∈ p, x ∈ h.extent mem

/-- The request is turned down: it exceeds the free total, or no block fits. -/
def Refused (h : HeapMem) (bs : List Nat) (n : Nat) : Prop :=
  sub32 h.memTotalSize h.memUsedSize < requestSize n ∨ ∀ b ∈ bs, ¬ h.Fits (requestSize n) b

/-- The block that fits is the only free one, and too short for a rest. -/
def TakesLast (h : HeapMem) (bs : List Nat) (n : Nat) : Prop :=
  ∃ p ∈ bs, h.Fits (requestSize n) p ∧ (∀ b ∈ bs, b ≠ p → h.used b = true) ∧
    h.memLen p - requestSize n ≤ sizeofHeapMem + mallocMinSize

variable {h h' h₀ : HeapMem} {live bs bs' : List Nat} {s : Allocator}
  {beginAddr endAddr mem n p size : Nat}

/-! Sizes. -/

theorem le_requestSize (hn : n ≤ 2 ^ 32 - 4) : n ≤ requestSize n := by
  unfold requestSize align word mallocMinSize
  split <;> omega

/-! The block that was taken. -/

/-- It is at least as long as the size that was looked for. -/
theorem taken_room (ht : Tiled h bs) (hp : p ∈ bs) (hfree : h.used p = false)
    (hsize : size % 4 = 0) (hfits : size < h.memLen p) :
    p + sizeofHeapMem + size ≤ ((h.splitBlock p size).markUsed p size).links.next p := by
  obtain ⟨pre, post, rfl⟩ := List.append_of_mem hp
  by_cases hsplit : sizeofHeapMem + mallocMinSize < sub32 (h.memLen p) size
  · have htiled := (splitBlock_cut ht hsize hfits hsplit).retiled hfree
    rw [htiled.next]
    change p + sizeofHeapMem + size ≤ p + size + sizeofHeapMem
    omega
  · have hwhole : h.splitBlock p size = h := if_neg hsplit
    rw [hwhole]
    change p + sizeofHeapMem + size ≤ h.links.next p
    rw [ht.memLen_eq] at hfits
    rw [ht.next]
    omega

/-- Taking it leaves no free block exactly if there was no other one and nothing
is cut off. -/
theorem taken_last_iff (ht : Tiled h bs) (hp : p ∈ bs) (hfree : h.used p = false)
    (hsize : size % 4 = 0) (hfits : size < h.memLen p) :
    ∃ bs', Taken h bs p ((h.splitBlock p size).markUsed p size) bs' ∧
      ((∀ b ∈ bs', ((h.splitBlock p size).markUsed p size).used b = true) ↔
        (∀ b ∈ bs, b ≠ p → h.used b = true) ∧
          h.memLen p - size ≤ sizeofHeapMem + mallocMinSize) := by
  obtain ⟨pre, post, rfl⟩ := List.append_of_mem hp
  have hlen : sub32 (h.memLen p) size = h.memLen p - size := by
    obtain ⟨-, hend⟩ := ht.le_after
    have htop := ht.top
    refine sub32_of_le hfits.le ?_
    rw [ht.memLen_eq]
    unfold sizeofHeapMem at *
    omega
  by_cases hsplit : sizeofHeapMem + mallocMinSize < sub32 (h.memLen p) size
  · have hcut := splitBlock_cut ht hsize hfits hsplit
    refine ⟨_, hcut.taken hfree, ?_⟩
    rw [hlen] at hsplit
    constructor
    · intro hall
      have hrest := hall (p + size + sizeofHeapMem) (by simp)
      rw [hcut.unused] at hrest
      cases hrest
    · rintro ⟨-, hshort⟩
      omega
  · have hwhole : h.splitBlock p size = h := if_neg hsplit
    rw [hwhole]
    have htake := markUsed_spec ht hfits
    refine ⟨_, htake, ?_⟩
    rw [hlen] at hsplit
    constructor
    · intro hall
      refine ⟨fun b hb hbp => ?_, by omega⟩
      rw [← htake.others b hb hbp]
      exact hall b hb
    · rintro ⟨hothers, -⟩ b hb
      by_cases hbp : b = p
      · rw [hbp]
        exact htake.taken
      · rw [htake.others b hb hbp]
        exact hothers b hb hbp

/-- With only one free block, that block is meant. -/
theorem takesLast_iff (hp : p ∈ bs) (hfits : h.Fits (requestSize n) p) :
    TakesLast h bs n ↔ (∀ b ∈ bs, b ≠ p → h.used b = true) ∧
      h.memLen p - requestSize n ≤ sizeofHeapMem + mallocMinSize := by
  constructor
  · rintro ⟨q, -, -, hothers, hshort⟩
    have hpq : p = q := by
      by_contra hne
      have hused := hothers p hp hne
      rw [hfits.1] at hused
      cases hused
    subst hpq
    exact ⟨hothers, hshort⟩
  · rintro ⟨hothers, hshort⟩
    exact ⟨p, hp, hfits, hothers, hshort⟩

/-- The three ways in which a call of `malloc` goes. -/
inductive Outcome (h : HeapMem) (live bs : List Nat) (n : Nat) :
    Except Fault (HeapMem × Option Nat) → Prop
  | refused (hrefused : Refused h bs n) : Outcome h live bs n (.ok (h, none))
  | failed (hrefused : ¬ Refused h bs n) (hlast : TakesLast h bs n) :
      Outcome h live bs n (.error .assertion)
  | took (p : Nat) {h' : HeapMem} {bs' : List Nat} (hrefused : ¬ Refused h bs n)
      (hlast : ¬ TakesLast h bs n) (howns : Owns h' ((p + sizeofHeapMem) :: live) bs')
      (hroom : p + sizeofHeapMem + requestSize n ≤ h'.links.next p) :
      Outcome h live bs n (.ok (h', some (p + sizeofHeapMem)))

theorem allocate_outcome (ho : Owns h live bs) (hp : p ∈ bs) (hfits : h.Fits (requestSize n) p)
    (hrefused : ¬ Refused h bs n) :
    Outcome h live bs n (h.allocate (requestSize n) (some p)) := by
  rw [HeapMem.allocate, ho.tiled.word_payload hp]
  have hroom := taken_room ho.tiled hp hfits.1 (requestSize_mod n) hfits.2
  obtain ⟨bs', htake, hall⟩ := taken_last_iff ho.tiled hp hfits.1 (requestSize_mod n) hfits.2
  rw [← takesLast_iff hp hfits] at hall
  rcases takeBlock_spec ho.first hp hfits.1 htake with
    ⟨hfail, hused⟩ | ⟨h', hcall, htake', hfirst, hsame⟩
  · rw [hfail]
    exact .failed hrefused (hall.mp hused)
  · rw [hcall]
    refine .took p hrefused (fun hlast => ?_) (ho.take hp hfits.1 htake' hfirst) ?_
    · -- the block that `heap_mem_free` points to is free, so not all of them are used
      have hused := hall.mpr hlast _ hfirst.member
      rw [← hsame.used, hfirst.unused] at hused
      cases hused
    · rw [hsame.links]
      exact hroom

theorem malloc_outcome (ho : Owns h live bs) (hn : n ≠ 0) :
    Outcome h live bs n (malloc h n) := by
  rw [malloc_eq ho.tiled ho.first]
  by_cases htotal : sub32 h.memTotalSize h.memUsedSize < requestSize n
  · rw [if_pos (.inr htotal)]
    exact .refused (.inl htotal)
  rw [if_neg (not_or.mpr ⟨hn, htotal⟩)]
  cases hfind : bs.find? fun b => h.Fits (requestSize n) b with
  | none =>
    refine .refused (.inr fun b hb hfits => ?_)
    have hnot := List.find?_eq_none.mp hfind b hb
    exact hnot (decide_eq_true hfits)
  | some p =>
    have hp := List.mem_of_find?_eq_some hfind
    have hfits : h.Fits (requestSize n) p := by simpa using List.find?_some hfind
    refine allocate_outcome ho hp hfits ?_
    rintro (hlt | hnone)
    · exact htotal hlt
    · exact hnone p hp hfits

/-! The bytes that were asked for. -/

theorem Owns.contains (ho : Owns h ((p + sizeofHeapMem) :: live) bs)
    (hroom : p + sizeofHeapMem + n ≤ h.links.next p) :
    Contains h ((p + sizeofHeapMem) :: live) bs (p + sizeofHeapMem) n := by
  have hw := ho.wellFormed
  have hmem : p + sizeofHeapMem ∈ (p + sizeofHeapMem) :: live := List.mem_cons_self ..
  have hsub : Set.Ico (p + sizeofHeapMem) (p + sizeofHeapMem + n) ⊆
      h.extent (p + sizeofHeapMem) := by
    unfold HeapMem.extent
    rw [Nat.add_sub_cancel]
    exact Set.Ico_subset_Ico_right hroom
  refine ⟨?_, hsub, ?_, ?_⟩
  · obtain ⟨b, hb, -, heq⟩ := (ho.payloads _).mp hmem
    obtain rfl : p = b := Nat.add_right_cancel heq
    obtain ⟨pre, post, rfl⟩ := List.append_of_mem hb
    have hend := ho.tiled.le_after.2
    rw [ho.tiled.next] at hroom
    omega
  · intro other hother hne
    have hsymm : Std.Symm fun a b => Disjoint (h.extent a) (h.extent b) := ⟨fun _ _ hab => hab.symm⟩
    exact (hw.disjoint.forall hmem hother hne.symm).mono_left hsub
  · intro b hb
    exact (hw.headers _ hmem b hb).mono_right hsub

/-- A `memset` that does not run over the end of the address space. -/
theorem memset_outside (memory : Memory) (src : Nat) (ch : Byte) (count x : Nat)
    (htop : src + count ≤ 2 ^ 32) (hx : x ∉ Set.Ico src (src + count)) :
    memset memory src ch count x = memory x := by
  induction count generalizing memory src with
  | zero => rfl
  | succ count ih =>
    rw [Set.mem_Ico] at hx
    have hxs : x ≠ src := by omega
    rw [memset]
    rcases Nat.lt_or_ge (src + 1) (2 ^ 32) with hlt | hge
    · rw [word, Nat.mod_eq_of_lt hlt, ih _ _ (by omega) (by rw [Set.mem_Ico]; omega)]
      exact Function.update_of_ne hxs _ _
    · have hzero : count = 0 := by omega
      subst hzero
      exact Function.update_of_ne hxs _ _

theorem zalloc_none {memory : Memory} (hs : malloc h n = .ok (h', none)) :
    zalloc h memory n = .ok (h', memory, none) := by
  unfold zalloc
  rw [hs]
  rfl

theorem zalloc_some {memory : Memory} (hs : malloc h n = .ok (h', some mem)) :
    zalloc h memory n = .ok (h', memset memory mem 0 n, some mem) := by
  unfold zalloc
  rw [hs]
  rfl

/-- A request that is refused, or whose size does not wrap and which leaves a
free block. -/
def Served (h : HeapMem) (bs : List Nat) (n : Nat) : Prop :=
  Refused h bs n ∨ (n ≤ 2 ^ 32 - 4 ∧ ¬ TakesLast h bs n)

theorem Owns.gives_of_served (ho : Owns s.heap s.live bs) (hn : 1 ≤ n)
    (hserved : Served s.heap bs n) : MallocGives s n ∧ ZallocStaysInside s n := by
  have houtcome := malloc_outcome ho (Nat.one_le_iff_ne_zero.mp hn)
  generalize hcall : malloc s.heap n = result at houtcome
  cases houtcome with
  | refused =>
    refine ⟨⟨s.heap, none, hcall, by simp⟩, fun memory => ?_⟩
    exact ⟨s.heap, memory, none, zalloc_none hcall, fun x hx => absurd rfl hx⟩
  | failed hrefused hlast => exact absurd hlast (hserved.resolve_left hrefused).2
  | took p hrefused hlast howns hroom =>
    have hsize := le_requestSize (hserved.resolve_left hrefused).1
    have hcontains := howns.contains (n := n) (by omega)
    refine ⟨⟨_, _, hcall, ?_⟩, fun memory => ⟨_, _, _, zalloc_some hcall, fun x hx => ?_⟩⟩
    · rintro mem ⟨⟩
      exact ⟨_, howns.wellFormed, hcontains⟩
    · refine ⟨_, rfl, ?_⟩
      by_contra hout
      have htop := howns.tiled.top
      have hregion := hcontains.region
      exact hx (memset_outside memory _ 0 n x (by omega) fun hin => hout (hcontains.block hin))

/-- No pointer has that many bytes above it. -/
theorem Owns.served_of_gives (ho : Owns s.heap s.live bs) (hn : 1 ≤ n) (hword : n < 2 ^ 32)
    (hgives : MallocGives s n) : Served s.heap bs n := by
  have houtcome := malloc_outcome ho (Nat.one_le_iff_ne_zero.mp hn)
  obtain ⟨h, p, hcall, hholds⟩ := hgives
  rw [hcall] at houtcome
  cases houtcome with
  | refused hrefused => exact .inl hrefused
  | took q hrefused hlast howns hroom =>
    refine .inr ⟨?_, hlast⟩
    obtain ⟨_, -, hcontains⟩ := hholds _ rfl
    have hregion := hcontains.region
    have htop := howns.tiled.top
    unfold sizeofHeapMem at *
    omega

/-- `malloc` returns NULL or a block of the size that was asked for, and `zalloc`
clears inside of it, exactly if the request is refused, or is at most
`2 ^ 32 - 4` and does not take the last free block. -/
theorem malloc_gives_iff (hregion : Region beginAddr endAddr)
    (hrun : Reaches heapStep anyStep ⟨heapMemInit h₀ beginAddr endAddr, []⟩ s)
    (hn : 1 ≤ n) (hword : n < 2 ^ 32) :
    ∃ bs, WellFormed s.heap s.live bs ∧
      ((MallocGives s n ∧ ZallocStaysInside s n) ↔ Served s.heap bs n) := by
  obtain ⟨⟨bs, ho⟩, -, -⟩ := reaches_owns hregion hrun
  refine ⟨bs, ho.wellFormed, ?_, ho.gives_of_served hn⟩
  rintro ⟨hgives, -⟩
  exact ho.served_of_gives hn hword hgives

theorem smallHeap_gives :
    ∃ s, runInputs heapStep anyStep fiveActs smallHeap = some s ∧
      ∃ bs, WellFormed s.heap s.live bs ∧
        ((MallocGives s 20 ∧ ZallocStaysInside s 20) ↔ Served s.heap bs 20) := by
  have hlive : (runInputs heapStep anyStep fiveActs smallHeap).map (fun s => s.live.length) =
      some 3 := by decide +kernel
  obtain ⟨s, hs, -⟩ := Option.map_eq_some_iff.mp hlive
  exact ⟨s, hs, malloc_gives_iff ⟨by decide, by decide, by decide⟩ (.of_runInputs hs)
    (by decide) (by decide)⟩

/-- The largest size there is, asked of a heap of a kilobyte: a block without
payload comes back, and `zalloc` clears the whole address space. -/
theorem top_request_gives_empty_block :
    ∃ s, Reaches heapStep anyStep smallHeap s ∧ ¬ MallocGives s 0xffffffff := by
  refine ⟨smallHeap, .refl, ?_⟩
  rintro ⟨h, p, hcall, hholds⟩
  have hfacts : (malloc smallHeap.heap 0xffffffff).toOption.map (fun r => (r.2, r.1.heapMemEnd)) =
      some (some 0x20000010, 0x200003f4) := by decide +kernel
  rw [hcall] at hfacts
  obtain ⟨hp, hend⟩ := Prod.mk.inj (Option.some.inj hfacts)
  obtain ⟨bs, -, hcontains⟩ := hholds _ hp
  have hregion := hcontains.region
  have hend' : h.heapMemEnd = 0x200003f4 := hend
  omega

end PosixRtos.Heap
