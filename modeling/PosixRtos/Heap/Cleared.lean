import PosixRtos.Heap.FirstFit

/-! Memory that is expected to be cleared. `zalloc` clears what it returns. `calloc`
multiplies in 32-bit arithmetic and leaves the bytes as the last owner left them. -/
namespace PosixRtos.Heap

open PosixRtos.Library.Runs PosixRtos.Library.ByteMemory

/-- The payload of a block that `malloc` returns is not written to: headers lie
outside of it. -/
def calloc (h : HeapMem) (memory : Memory) (num size : Nat) :
    Except Fault (HeapMem × Memory × Option Nat) := do
  let (h, p) ← malloc h (word (size * num))
  .ok (h, memory, p)

/-- The call has returned NULL, or a block with `n` bytes that are all 0. -/
def Clears (s : Allocator) (result : Except Fault (HeapMem × Memory × Option Nat)) (n : Nat) :
    Prop :=
  ∃ h memory p, result = .ok (h, memory, p) ∧
    ∀ mem ∈ p, ∃ bs, WellFormed h (mem :: s.live) bs ∧ Contains h (mem :: s.live) bs mem n ∧
      ∀ x ∈ Set.Ico mem (mem + n), memory x = 0

/-- The block that the product is met from has been cleared by its last owner. -/
def ClearBlock (h : HeapMem) (memory : Memory) (n : Nat) : Prop :=
  ∀ p ∈ h.blocks.find? fun b => h.Fits (requestSize n) b,
    ∀ x ∈ Set.Ico (p + sizeofHeapMem) (p + sizeofHeapMem + n), memory x = 0

/-- The wrapped product asks for nothing, or is refused; or the product does not
wrap, is not met from the last free block, and is met from a cleared one. -/
def CallocServed (h : HeapMem) (memory : Memory) (num size : Nat) : Prop :=
  word (size * num) = 0 ∨ Refused h h.blocks (word (size * num)) ∨
    (num * size ≤ 2 ^ 32 - 4 ∧ ¬ TakesLast h h.blocks (num * size) ∧
      ClearBlock h memory (num * size))

variable {h h' h₀ : HeapMem} {live bs : List Nat} {s : Allocator} {memory memory' : Memory}
  {beginAddr endAddr mem n num p size : Nat}

theorem memset_inside (memory : Memory) (src : Nat) (ch : Byte) (count x : Nat)
    (htop : src + count ≤ 2 ^ 32) (hx : x ∈ Set.Ico src (src + count)) :
    memset memory src ch count x = ch := by
  induction count generalizing memory src with
  | zero =>
    rw [Set.mem_Ico] at hx
    omega
  | succ count ih =>
    rw [Set.mem_Ico] at hx
    rw [memset]
    by_cases hlast : count = 0
    · have hxs : x = src := by omega
      rw [hlast, memset, hxs, Function.update_self]
    rw [word, Nat.mod_eq_of_lt (by omega)]
    by_cases hxs : x = src
    · -- the first byte is not written again
      rw [memset_outside _ _ _ _ _ (by omega) (by rw [Set.mem_Ico]; omega), hxs,
        Function.update_self]
    · exact ih _ _ (by omega) (by rw [Set.mem_Ico]; omega)

/-! What a call of `malloc` leads to, for callers that write to the block only. -/

/-- `post p` is the memory after the caller has received `p`. -/
def afterMalloc (h : HeapMem) (n : Nat) (post : Option Nat → Memory) :
    Except Fault (HeapMem × Memory × Option Nat) := do
  let (h, p) ← malloc h n
  .ok (h, post p, p)

theorem calloc_eq (h : HeapMem) (memory : Memory) (num size : Nat) :
    calloc h memory num size = afterMalloc h (word (size * num)) fun _ => memory := rfl

theorem zalloc_eq (h : HeapMem) (memory : Memory) (size : Nat) :
    zalloc h memory size =
      afterMalloc h size fun p => p.elim memory fun p => memset memory p 0 size := by
  unfold zalloc afterMalloc
  cases malloc h size with
  | error fault => rfl
  | ok result =>
    obtain ⟨h', p⟩ := result
    cases p <;> rfl

/-- The caller wants `m` cleared bytes and has asked for `n`. -/
theorem Owns.clears_iff (ho : Owns s.heap s.live bs) (post : Option Nat → Memory)
    (hn : n < 2 ^ 32) {m : Nat} (hm : m % 2 ^ 32 = n) :
    Clears s (afterMalloc s.heap n post) m ↔
      n = 0 ∨ Refused s.heap bs n ∨ (m ≤ 2 ^ 32 - 4 ∧ ¬ TakesLast s.heap bs n ∧
        ∀ p ∈ bs.find? fun b => s.heap.Fits (requestSize n) b,
          ∀ x ∈ Set.Ico (p + sizeofHeapMem) (p + sizeofHeapMem + m),
            post (some (p + sizeofHeapMem)) x = 0) := by
  by_cases hzero : n = 0
  · refine ⟨fun _ => .inl hzero, fun _ => ⟨s.heap, post none, none, ?_, by simp⟩⟩
    unfold afterMalloc malloc
    rw [if_pos hzero]
    rfl
  have houtcome := malloc_outcome ho hzero
  unfold afterMalloc
  generalize hcall : malloc s.heap n = result at houtcome
  cases houtcome with
  | refused hrefused =>
    exact ⟨fun _ => .inr (.inl hrefused), fun _ => ⟨s.heap, post none, none, rfl, by simp⟩⟩
  | failed hrefused hlast =>
    constructor
    · rintro ⟨h, memory, p, hresult, -⟩
      cases hresult
    · rintro (hn | hrefuse | ⟨-, hnot, -⟩)
      · exact absurd hn hzero
      · exact absurd hrefuse hrefused
      · exact absurd hlast hnot
  | @took p h' bs' hrefused hlast howns hroom =>
    obtain ⟨-, -, hfind, -⟩ := ho.malloc_some_iff.mp ⟨h', hcall⟩
    have htop := howns.tiled.top
    have hheader : sizeofHeapMem = 12 := rfl
    constructor
    · rintro ⟨h, memory, q, hresult, hclear⟩
      cases hresult
      obtain ⟨_, -, hcontains, hbytes⟩ := hclear _ rfl
      have hregion := hcontains.region
      refine .inr (.inr ⟨by omega, hlast, ?_⟩)
      rintro q hq
      rw [hfind] at hq
      cases hq
      exact hbytes
    · rintro (hn | hrefuse | ⟨hle, -, hbytes⟩)
      · exact absurd hn hzero
      · exact absurd hrefuse hrefused
      · refine ⟨h', _, _, rfl, ?_⟩
        rintro mem ⟨⟩
        have hmn : m = n := by omega
        have hsize := le_requestSize (hmn ▸ hle)
        exact ⟨bs', howns.wellFormed, howns.contains (by omega), hbytes p hfind⟩

/-- `calloc` delivers the bytes of the mathematical product, cleared, exactly if
`CallocServed`; `zalloc` delivers exactly if `malloc` does. -/
theorem cleared_iff (hregion : Region beginAddr endAddr)
    (hrun : Reaches heapStep anyStep ⟨heapMemInit h₀ beginAddr endAddr, []⟩ s)
    (memory : Memory) (num size : Nat) (hn : n < 2 ^ 32) :
    (Clears s (calloc s.heap memory num size) (num * size) ↔
        CallocServed s.heap memory num size) ∧
      (Clears s (zalloc s.heap memory n) n ↔ n = 0 ∨ Served s.heap s.heap.blocks n) := by
  obtain ⟨⟨bs, ho⟩, -, -⟩ := reaches_owns hregion hrun
  have hblocks := ho.tiled.blocks_eq
  constructor
  · have hlt : word (size * num) < 2 ^ 32 := Nat.mod_lt _ (by decide)
    have hmod : num * size % 2 ^ 32 = word (size * num) := by
      rw [Nat.mul_comm]
      rfl
    rw [calloc_eq, ho.clears_iff _ hlt hmod]
    unfold CallocServed ClearBlock
    rw [hblocks]
    refine or_congr Iff.rfl (or_congr Iff.rfl (and_congr_right fun hle => ?_))
    have hword : word (size * num) = num * size := by
      rw [Nat.mul_comm]
      exact Nat.mod_eq_of_lt (by omega)
    rw [hword]
  · rw [zalloc_eq, ho.clears_iff _ hn (Nat.mod_eq_of_lt hn), hblocks]
    unfold Served
    refine or_congr Iff.rfl (or_congr Iff.rfl (and_congr_right fun hle => ?_))
    refine and_iff_left_of_imp fun hlast p hp x hx => ?_
    have hfits : s.heap.Fits (requestSize n) p := by simpa using List.find?_some hp
    have hroom : p + sizeofHeapMem + n ≤ 2 ^ 32 := by
      have hmem := List.mem_of_find?_eq_some hp
      have hsize := le_requestSize hle
      have htop := ho.tiled.top
      obtain ⟨pre, post, rfl⟩ := List.append_of_mem hmem
      have hend := ho.tiled.le_after
      have hlong := hfits.2
      rw [ho.tiled.memLen_eq] at hlong
      omega
    exact memset_inside memory _ 0 n x hroom hx

theorem smallHeap_cleared :
    ∃ s, runInputs heapStep anyStep fiveActs smallHeap = some s ∧
      (Clears s (calloc s.heap (fun _ => 0) 3 4) 12 ↔ CallocServed s.heap (fun _ => 0) 3 4) ∧
      (Clears s (zalloc s.heap (fun _ => 1) 40) 40 ↔ 40 = 0 ∨ Served s.heap s.heap.blocks 40) := by
  have hlive : (runInputs heapStep anyStep fiveActs smallHeap).map (fun s => s.live.length) =
      some 3 := by decide +kernel
  obtain ⟨s, hs, -⟩ := Option.map_eq_some_iff.mp hlive
  have hregion : Region 0x20000001 0x200003ff := ⟨by decide, by decide, by decide⟩
  have hsmall : 0 < 2 ^ 32 := by decide
  exact ⟨s, hs, (cleared_iff hregion (.of_runInputs hs) (fun _ => 0) 3 4 hsmall).1,
    (cleared_iff hregion (.of_runInputs hs) (fun _ => 1) 0 0 (by decide)).2⟩

/-- The owner of 32 bytes has filled them and given them back. `calloc` for two
objects of four bytes returns them as they are, and `calloc` for `2 ^ 30 + 1` such
objects returns them as well. -/
theorem calloc_returns_old_bytes :
    ∃ s, runInputs heapStep anyStep [.malloc 32, .malloc 20, .free 0x20000010] smallHeap = some s ∧
      ∃ memory : Memory, memory = memset (fun _ => 0) 0x20000010 0xaa 32 ∧
        ¬ Clears s (calloc s.heap memory 2 4) 8 ∧
        ¬ Clears s (calloc s.heap memory 0x40000001 4) (0x40000001 * 4) := by
  have hfacts : (runInputs heapStep anyStep [.malloc 32, .malloc 20, .free 0x20000010]
      smallHeap).map (fun s => ((malloc s.heap 8).toOption.map (·.2),
        (malloc s.heap 4).toOption.map fun r => (r.2, r.1.heapMemEnd))) =
      some (some (some 0x20000010), some (some 0x20000010, 0x200003f4)) := by decide +kernel
  obtain ⟨s, hs, heq⟩ := Option.map_eq_some_iff.mp hfacts
  obtain ⟨hproduct, hwrapped⟩ := Prod.mk.inj heq
  refine ⟨s, hs, _, rfl, ?_, ?_⟩
  · rintro ⟨h, memory, p, hresult, hclear⟩
    rw [calloc_eq, afterMalloc, show word (4 * 2) = 8 from rfl] at hresult
    cases hcall : malloc s.heap 8 with
    | error fault =>
      rw [hcall] at hproduct
      cases hproduct
    | ok result =>
      rw [hcall] at hproduct hresult
      cases hresult
      obtain ⟨bs, -, -, hbytes⟩ := hclear _ (Option.some.inj hproduct)
      have hzero := hbytes 0x20000010 (by simp)
      have hfilled : memset (fun _ => 0) 0x20000010 0xaa 32 0x20000010 = 0xaa := by
        decide +kernel
      rw [hfilled] at hzero
      cases hzero
  · rintro ⟨h, memory, p, hresult, hclear⟩
    rw [calloc_eq, afterMalloc, show word (4 * 0x40000001) = 4 from rfl] at hresult
    cases hcall : malloc s.heap 4 with
    | error fault =>
      rw [hcall] at hwrapped
      cases hwrapped
    | ok result =>
      rw [hcall] at hwrapped hresult
      cases hresult
      obtain ⟨hp, hend⟩ := Prod.mk.inj (Option.some.inj hwrapped)
      obtain ⟨bs, -, hcontains, -⟩ := hclear _ hp
      have hregion := hcontains.region
      have hend' : result.1.heapMemEnd = 0x200003f4 := hend
      omega

end PosixRtos.Heap
