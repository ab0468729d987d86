import PosixRtos.Heap.Requests

/-! Which requests come back, and with which block. `malloc` compares the length of
a block with `>`, refuses by its counters before it looks at the blocks, and stops
for ever in its assertion when no free block is left for `heap_mem_free`. -/
namespace PosixRtos.Heap

open PosixRtos.Library.Runs

variable {h h' h₀ : HeapMem} {live bs : List Nat} {s : Allocator}
  {beginAddr endAddr mem n p size : Nat}

/-! Calls that return. -/

/-- A call of `malloc` returns unless it is met from the last free block. -/
def Returning (h : HeapMem) (n : Nat) : Prop :=
  n = 0 ∨ Refused h h.blocks n ∨ ¬ TakesLast h h.blocks n

theorem Owns.returns_iff (ho : Owns h live bs) (n : Nat) :
    (∃ r, malloc h n = .ok r) ↔ Returning h n := by
  unfold Returning
  rw [ho.tiled.blocks_eq]
  by_cases hn : n = 0
  · have hcall : malloc h n = .ok (h, none) := if_pos hn
    exact ⟨fun _ => .inl hn, fun _ => ⟨_, hcall⟩⟩
  have houtcome := malloc_outcome ho hn
  generalize malloc h n = result at houtcome
  cases houtcome with
  | refused hrefused => exact ⟨fun _ => .inr (.inl hrefused), fun _ => ⟨_, rfl⟩⟩
  | failed hrefused hlast =>
    constructor
    · rintro ⟨r, hr⟩
      cases hr
    · rintro (hzero | hrefuse | hnot)
      · exact absurd hzero hn
      · exact absurd hrefuse hrefused
      · exact absurd hlast hnot
  | took p hrefused hlast howns hroom => exact ⟨fun _ => .inr (.inr hlast), fun _ => ⟨_, rfl⟩⟩

/-- The loops of `malloc` always end; its assertion holds, and the call returns,
exactly if the request is not met from the last free block. -/
theorem malloc_returns_iff (hregion : Region beginAddr endAddr)
    (hrun : Reaches heapStep anyStep ⟨heapMemInit h₀ beginAddr endAddr, []⟩ s) (n : Nat) :
    malloc s.heap n ≠ .error .endless ∧
      ((∃ r, malloc s.heap n = .ok r) ↔ Returning s.heap n) := by
  obtain ⟨⟨bs, ho⟩, -, -⟩ := reaches_owns hregion hrun
  exact ⟨ho.malloc_ends n, ho.returns_iff n⟩

theorem smallHeap_returns :
    ∃ s, runInputs heapStep anyStep fiveActs smallHeap = some s ∧
      malloc s.heap 40 ≠ .error .endless ∧
      ((∃ r, malloc s.heap 40 = .ok r) ↔ Returning s.heap 40) := by
  have hlive : (runInputs heapStep anyStep fiveActs smallHeap).map (fun s => s.live.length) =
      some 3 := by decide +kernel
  obtain ⟨s, hs, -⟩ := Option.map_eq_some_iff.mp hlive
  exact ⟨s, hs, malloc_returns_iff ⟨by decide, by decide, by decide⟩ (.of_runInputs hs) 40⟩

/-- The single free block has 996 bytes. It is taken for 980, and the assertion
finds no other one. -/
theorem last_block_never_returns :
    ∃ s, Reaches heapStep anyStep smallHeap s ∧ malloc s.heap 980 = .error .assertion ∧
      ¬ ∃ r, malloc s.heap 980 = .ok r := by
  have hcall : malloc smallHeap.heap 980 = .error .assertion := by
    have hfault : (match malloc smallHeap.heap 980 with
        | .error .assertion => true
        | _ => false) = true := by decide +kernel
    split at hfault
    next heq => exact heq
    next => cases hfault
  refine ⟨smallHeap, .refl, hcall, ?_⟩
  rintro ⟨r, hr⟩
  rw [hcall] at hr
  cases hr

/-! The block that comes back. -/

theorem allocate_some {r : Option Nat} (hcall : h.allocate size (some p) = .ok (h', r)) :
    r = some (word (p + sizeofHeapMem)) := by
  rw [HeapMem.allocate] at hcall
  cases htake : h.takeBlock p size with
  | error fault =>
    rw [htake] at hcall
    cases hcall
  | ok h₁ =>
    rw [htake] at hcall
    cases hcall
    rfl

/-- `malloc` returns the block `p`: the counters admit the request, `p` is the
first block that is longer, and it is not the last free one. -/
theorem Owns.malloc_some_iff (ho : Owns h live bs) :
    (∃ h', malloc h n = .ok (h', some (p + sizeofHeapMem))) ↔
      n ≠ 0 ∧ requestSize n ≤ sub32 h.memTotalSize h.memUsedSize ∧
        bs.find? (fun b => h.Fits (requestSize n) b) = some p ∧ ¬ TakesLast h bs n := by
  rw [malloc_eq ho.tiled ho.first]
  by_cases hrefuse : n = 0 ∨ sub32 h.memTotalSize h.memUsedSize < requestSize n
  · rw [if_pos hrefuse]
    constructor
    · rintro ⟨h', hr⟩
      cases hr
    · rintro ⟨hn, hle, -⟩
      rcases hrefuse with hzero | hlt
      · exact absurd hzero hn
      · exact absurd hle (not_le.mpr hlt)
  rw [if_neg hrefuse]
  obtain ⟨hn, hle⟩ := not_or.mp hrefuse
  cases hfind : bs.find? fun b => h.Fits (requestSize n) b with
  | none =>
    constructor
    · rintro ⟨h', hr⟩
      cases hr
    · rintro ⟨-, -, hnone, -⟩
      cases hnone
  | some q =>
    have hq := List.mem_of_find?_eq_some hfind
    have hfits : h.Fits (requestSize n) q := by simpa using List.find?_some hfind
    have hnot : ¬ Refused h bs n := by
      rintro (hlt | hnone)
      · exact hle hlt
      · exact hnone q hq hfits
    have houtcome := allocate_outcome ho hq hfits hnot
    have hvalue : ∀ h' r, h.allocate (requestSize n) (some q) = .ok (h', r) →
        r = some (word (q + sizeofHeapMem)) := fun _ _ => allocate_some
    generalize h.allocate (requestSize n) (some q) = result at houtcome hvalue
    cases houtcome with
    | refused hrefused => exact absurd hrefused hnot
    | failed _ hlast =>
      constructor
      · rintro ⟨h', hr⟩
        cases hr
      · rintro ⟨-, -, -, hlast'⟩
        exact absurd hlast hlast'
    | took p' _ hlast =>
      have hp' := hvalue _ _ rfl
      rw [ho.tiled.word_payload hq] at hp'
      obtain rfl : p' = q := Nat.add_right_cancel (Option.some.inj hp')
      constructor
      · rintro ⟨h', hr⟩
        cases hr
        exact ⟨hn, not_lt.mp hle, rfl, hlast⟩
      · rintro ⟨-, -, hp, -⟩
        cases hp
        exact ⟨_, rfl⟩

/-- `n` rounded up to a word, and not below the least block. -/
def wordSize (n : Nat) : Nat := max mallocMinSize ((n + 3) / 4 * 4)

theorem requestSize_eq (hn : n ≤ 2 ^ 32 - 4) : requestSize n = wordSize n := by
  unfold requestSize wordSize align word mallocMinSize
  split <;> omega

/-- A free block with a payload of at least `size` bytes. -/
def HeapMem.Holds (h : HeapMem) (size b : Nat) : Prop := h.used b = false ∧ size ≤ h.memLen b

instance (h : HeapMem) (size b : Nat) : Decidable (h.Holds size b) :=
  inferInstanceAs (Decidable (_ ∧ _))

structure Lowest (h : HeapMem) (size p : Nat) : Prop where
  block : p ∈ h.blocks
  holds : h.Holds size p
  least : ∀ b ∈ h.blocks, h.Holds size b → p ≤ b

/-- `malloc` returns the payload of the lowest block that holds the request, and
NULL with the heap unchanged if none does. -/
def FirstFit (h : HeapMem) (n : Nat) : Prop :=
  (∀ p, Lowest h (wordSize n) p → ∃ h', malloc h n = .ok (h', some (p + sizeofHeapMem))) ∧
    ((∀ b ∈ h.blocks, ¬ h.Holds (wordSize n) b) → malloc h n = .ok (h, none))

/-- The lowest block that holds the request, if there is one, is longer than the
request, the counters admit it, and it is not the last free block. -/
def Admitted (h : HeapMem) (n : Nat) : Prop :=
  ∀ p, Lowest h (wordSize n) p →
    wordSize n ≠ h.memLen p ∧ wordSize n ≤ sub32 h.memTotalSize h.memUsedSize ∧
      ¬ TakesLast h h.blocks n

/-- Of the blocks in the order of their addresses the first that fits is the
lowest that holds the request, if that one fits. -/
theorem Tiled.find_lowest (ht : Tiled h bs) (hlow : Lowest h size p) (hfits : h.Fits size p) :
    bs.find? (fun b => h.Fits size b) = some p := by
  have hp := hlow.block
  have hleast := hlow.least
  rw [ht.blocks_eq] at hp hleast
  obtain ⟨q, hq⟩ : ∃ q, bs.find? (fun b => h.Fits size b) = some q := by
    rw [← Option.isSome_iff_exists, List.find?_isSome]
    exact ⟨p, hp, decide_eq_true hfits⟩
  obtain ⟨hqfits, pre, post, hsplit, hpre⟩ := List.find?_eq_some_iff_append.mp hq
  have hqholds : h.Holds size q := by
    have hq := of_decide_eq_true hqfits
    exact ⟨hq.1, hq.2.le⟩
  have hpq : p ≤ q := hleast q (List.mem_of_find?_eq_some hq) hqholds
  rw [hq]
  subst hsplit
  rcases List.mem_append.mp hp with hmem | hmem
  · have hnot := hpre p hmem
    rw [decide_eq_true hfits] at hnot
    cases hnot
  · rcases List.mem_cons.mp hmem with rfl | hmem
    · rfl
    · have hlt := ht.around.2 p hmem
      have hheader : sizeofHeapMem = 12 := rfl
      omega

theorem Owns.malloc_none (ho : Owns h live bs) (hsize : requestSize n = wordSize n)
    (hnone : ∀ b ∈ bs, ¬ h.Holds (wordSize n) b) : malloc h n = .ok (h, none) := by
  rw [malloc_eq ho.tiled ho.first, hsize]
  have hfind : bs.find? (fun b => h.Fits (wordSize n) b) = none := by
    refine List.find?_eq_none.mpr fun b hb hfits => hnone b hb ?_
    have hfits := of_decide_eq_true hfits
    exact ⟨hfits.1, hfits.2.le⟩
  rw [hfind]
  split <;> rfl

theorem malloc_firstFit_iff (hregion : Region beginAddr endAddr)
    (hrun : Reaches heapStep anyStep ⟨heapMemInit h₀ beginAddr endAddr, []⟩ s)
    (hn : 1 ≤ n) (htop : n ≤ 2 ^ 32 - 4) : FirstFit s.heap n ↔ Admitted s.heap n := by
  obtain ⟨⟨bs, ho⟩, -, -⟩ := reaches_owns hregion hrun
  have hsize := requestSize_eq htop
  constructor
  · rintro ⟨hgives, -⟩ p hlow
    obtain ⟨-, hle, hfind, hlast⟩ := ho.malloc_some_iff.mp (hgives p hlow)
    have hfits : s.heap.Fits (requestSize n) p := by simpa using List.find?_some hfind
    rw [hsize] at hle hfits
    rw [ho.tiled.blocks_eq]
    exact ⟨hfits.2.ne, hle, hlast⟩
  · intro hadmitted
    refine ⟨fun p hlow => ?_, fun hnone => ?_⟩
    · obtain ⟨hne, hle, hlast⟩ := hadmitted p hlow
      rw [ho.tiled.blocks_eq] at hlast
      have hfits : s.heap.Fits (wordSize n) p :=
        ⟨hlow.holds.1, lt_of_le_of_ne hlow.holds.2 hne⟩
      refine ho.malloc_some_iff.mpr ⟨by omega, hsize ▸ hle, ?_, hlast⟩
      rw [hsize]
      exact ho.tiled.find_lowest hlow hfits
    · rw [ho.tiled.blocks_eq] at hnone
      exact ho.malloc_none hsize hnone

theorem smallHeap_firstFit :
    ∃ s, runInputs heapStep anyStep fiveActs smallHeap = some s ∧
      (FirstFit s.heap 40 ↔ Admitted s.heap 40) := by
  have hlive : (runInputs heapStep anyStep fiveActs smallHeap).map (fun s => s.live.length) =
      some 3 := by decide +kernel
  obtain ⟨s, hs, -⟩ := Option.map_eq_some_iff.mp hlive
  exact ⟨s, hs, malloc_firstFit_iff ⟨by decide, by decide, by decide⟩ (.of_runInputs hs)
    (by decide) (by decide)⟩

/-- A block of 100 bytes that has been given back. -/
def oneHole : List HeapAct := [.malloc 100, .malloc 20, .free 0x20000010]

/-- The hole is not used again for 100 bytes: the next free block is. -/
theorem exact_fit_is_skipped :
    ∃ s, Reaches heapStep anyStep smallHeap s ∧ Lowest s.heap (wordSize 100) 0x20000004 ∧
      (∃ h', malloc s.heap 100 = .ok (h', some 0x200000a0)) ∧ ¬ FirstFit s.heap 100 := by
  have hfacts : (runInputs heapStep anyStep oneHole smallHeap).map
      (fun s => (s.heap.blocks, s.heap.used 0x20000004, s.heap.memLen 0x20000004,
        (malloc s.heap 100).toOption.map (·.2))) =
      some ([0x20000004, 0x20000074, 0x20000094], false, 100, some (some 0x200000a0)) := by
    decide +kernel
  obtain ⟨s, hs, heq⟩ := Option.map_eq_some_iff.mp hfacts
  simp only [Prod.mk.injEq] at heq
  obtain ⟨hblocks, hfree, hlen, hcall⟩ := heq
  have hlow : Lowest s.heap (wordSize 100) 0x20000004 := by
    refine ⟨by simp [hblocks], ⟨hfree, hlen.ge⟩, fun b hb _ => ?_⟩
    rw [hblocks] at hb
    simp only [List.mem_cons, List.not_mem_nil, or_false] at hb
    omega
  obtain ⟨⟨h', r⟩, hcall', hr⟩ := Option.map_eq_some_iff.mp hcall
  have hresult : malloc s.heap 100 = .ok (h', some 0x200000a0) := by
    rw [← hr]
    cases hmalloc : malloc s.heap 100 with
    | error fault =>
      rw [hmalloc] at hcall'
      cases hcall'
    | ok result =>
      rw [hmalloc] at hcall'
      cases hcall'
      rfl
  refine ⟨s, .of_runInputs hs, hlow, ⟨h', hresult⟩, fun hfirst => ?_⟩
  obtain ⟨h'', hgives⟩ := hfirst.1 _ hlow
  rw [hresult] at hgives
  cases hgives

end PosixRtos.Heap
