import PosixRtos.Heap.Requests

/-! What `mem_used_size` counts. `malloc` adds the size it has looked for, `free`
subtracts the extent of the block. The two are the same exactly if `malloc` has
cut the block behind what was asked for. -/
namespace PosixRtos.Heap

open PosixRtos.Library.Runs

/-- The counter is the number of bytes in used blocks. So what is released can be
subtracted from it, and it can be subtracted from `mem_total_size`. -/
structure Exact (s : Allocator) : Prop where
  used : s.heap.memUsedSize = s.heap.usedBytes
  released : ∀ mem ∈ s.live,
    s.heap.links.next (mem - sizeofHeapMem) - (mem - sizeofHeapMem) ≤ s.heap.memUsedSize
  none : s.live = [] → s.heap.memUsedSize = 0
  total : s.heap.memUsedSize ≤ s.heap.memTotalSize

/-- If the request is met, then from a block that leaves a rest. -/
def CutsBlock (s : Allocator) : HeapAct → Prop
  | .malloc n => n = 0 ∨ Refused s.heap s.heap.blocks n ∨
      ∀ p ∈ s.heap.blocks.find? fun b => s.heap.Fits (requestSize n) b,
        sizeofHeapMem + mallocMinSize < s.heap.memLen p - requestSize n
  | .free _ => True

instance (h : HeapMem) (bs : List Nat) (n : Nat) : Decidable (Refused h bs n) :=
  inferInstanceAs (Decidable (_ ∨ _))

instance (s : Allocator) (act : HeapAct) : Decidable (CutsBlock s act) :=
  match act with
  | .malloc _ => inferInstanceAs (Decidable (_ ∨ _ ∨ _))
  | .free _ => inferInstanceAs (Decidable True)

variable {h h' h₀ : HeapMem} {live bs pre post : List Nat} {s s' : Allocator}
  {beginAddr endAddr n p q size : Nat}

/-! `malloc`. -/

theorem advanceFree_sizes (hcall : h.advanceFree = .ok h') :
    h'.memUsedSize = h.memUsedSize ∧ h'.memTotalSize = h.memTotalSize := by
  unfold HeapMem.advanceFree at hcall
  cases hskip : h.skipUsed addresses h.heapMemFree with
  | error fault =>
    rw [hskip] at hcall
    cases hcall
  | ok memPtr =>
    rw [hskip] at hcall
    change (if _ then _ else _) = _ at hcall
    split at hcall
    · cases hcall
    · cases hcall
      exact ⟨rfl, rfl⟩

theorem markUsed_sizes (h : HeapMem) (p size : Nat) :
    ((h.splitBlock p size).markUsed p size).memUsedSize =
        word (h.memUsedSize + (size + sizeofHeapMem)) ∧
      ((h.splitBlock p size).markUsed p size).memTotalSize = h.memTotalSize := by
  unfold HeapMem.splitBlock
  split <;> exact ⟨rfl, rfl⟩

theorem takeBlock_sizes (hcall : h.takeBlock p size = .ok h') :
    h'.memUsedSize = word (h.memUsedSize + (size + sizeofHeapMem)) ∧
      h'.memTotalSize = h.memTotalSize := by
  obtain ⟨hused, htotal⟩ := markUsed_sizes h p size
  rw [← hused, ← htotal]
  unfold HeapMem.takeBlock at hcall
  generalize (h.splitBlock p size).markUsed p size = h₁ at hcall ⊢
  by_cases heq : h₁.heapMemFree = p
  · rw [if_pos heq] at hcall
    exact advanceFree_sizes hcall
  · rw [if_neg heq] at hcall
    cases hcall
    exact ⟨rfl, rfl⟩

theorem Cut.occupied_eq (hcut : Cut h pre p q post h') (hfree : h.used p = false) :
    occupied h'.used h.heapMemEnd (pre ++ p :: q :: post) =
      occupied h.used h.heapMemEnd (pre ++ p :: post) + (q - p) := by
  have hheader : sizeofHeapMem = 12 := rfl
  obtain ⟨hleft, hright⟩ := hcut.tiled.around
  have hflags : ∀ b ∈ pre ++ post, h'.used b = h.used b := by
    intro b hb
    rcases List.mem_append.mp hb with hb | hb
    · have := hleft b hb
      exact hcut.old (by simp [hb]) (by omega)
    · have := hright b hb
      exact hcut.old (by simp [hb]) (by omega)
  have hbefore : occupied h.used h.heapMemEnd (pre ++ p :: post) =
      occupied h.used p pre + occupied h.used h.heapMemEnd post := by
    rw [occupied_append, occupied, hfree, if_neg Bool.false_ne_true, Nat.zero_add]
  have hafter : occupied h'.used h.heapMemEnd (pre ++ p :: q :: post) =
      occupied h'.used p pre + ((q - p) + occupied h'.used h.heapMemEnd post) := by
    rw [occupied_append, occupied, occupied, hcut.self, hcut.unused, if_pos rfl,
      if_neg Bool.false_ne_true, Nat.zero_add, List.head?_cons, Option.getD_some]
  rw [hbefore, hafter, occupied_congr p fun b hb => hflags b (List.mem_append_left _ hb),
    occupied_congr _ fun b hb => hflags b (List.mem_append_right _ hb)]
  omega

/-- A block is taken and cut. -/
structure TakesCut (h : HeapMem) (live bs : List Nat) (n p : Nat) (h' : HeapMem) : Prop where
  owns : ∃ bs', Owns h' ((p + sizeofHeapMem) :: live) bs' ∧
    occupied h'.used h'.heapMemEnd bs' =
      occupied h.used h.heapMemEnd bs + (requestSize n + sizeofHeapMem)
  used : h'.memUsedSize = word (h.memUsedSize + (requestSize n + sizeofHeapMem))
  total : h'.memTotalSize = h.memTotalSize
  bounds : h'.heapMemBegin = h.heapMemBegin ∧ h'.heapMemEnd = h.heapMemEnd

theorem Owns.takesCut (ho : Owns h live bs) (hp : p ∈ bs) (hfits : h.Fits (requestSize n) p)
    (hrest : sizeofHeapMem + mallocMinSize < h.memLen p - requestSize n)
    (hcall : h.takeBlock p (requestSize n) = .ok h') : TakesCut h live bs n p h' := by
  obtain ⟨pre, post, rfl⟩ := List.append_of_mem hp
  have hlen : sub32 (h.memLen p) (requestSize n) = h.memLen p - requestSize n := by
    obtain ⟨-, hend⟩ := ho.tiled.le_after
    have htop := ho.tiled.top
    refine sub32_of_le hfits.2.le ?_
    rw [ho.tiled.memLen_eq]
    unfold sizeofHeapMem at *
    omega
  rw [← hlen] at hrest
  have hcut := splitBlock_cut ho.tiled (requestSize_mod n) hfits.2 hrest
  have hbytes := hcut.occupied_eq hfits.1
  obtain ⟨hused, htotal⟩ := takeBlock_sizes hcall
  rcases takeBlock_spec ho.first hp hfits.1 (hcut.taken hfits.1) with
    ⟨hfail, -⟩ | ⟨h'', hcall', htake, hfirst, hsame⟩
  · rw [hfail] at hcall
    cases hcall
  · rw [hcall'] at hcall
    cases hcall
    refine ⟨⟨_, ho.take hp hfits.1 htake hfirst, ?_⟩, hused, htotal, htake.bounds⟩
    rw [hsame.used, htake.bounds.2, hbytes]
    omega

theorem Owns.malloc_cuts (ho : Owns s.heap s.live bs) (hcuts : CutsBlock s (.malloc n))
    {r : Option Nat} (hcall : malloc s.heap n = .ok (h', r)) :
    (h' = s.heap ∧ r = none) ∨
      ∃ p, r = some (p + sizeofHeapMem) ∧ TakesCut s.heap s.live bs n p h' := by
  unfold CutsBlock at hcuts
  rw [ho.tiled.blocks_eq] at hcuts
  rw [malloc_eq ho.tiled ho.first] at hcall
  by_cases hrefuse : n = 0 ∨ sub32 s.heap.memTotalSize s.heap.memUsedSize < requestSize n
  · rw [if_pos hrefuse] at hcall
    cases hcall
    exact .inl ⟨rfl, rfl⟩
  rw [if_neg hrefuse] at hcall
  cases hfind : bs.find? fun b => s.heap.Fits (requestSize n) b with
  | none =>
    rw [hfind] at hcall
    cases hcall
    exact .inl ⟨rfl, rfl⟩
  | some p =>
    have hp := List.mem_of_find?_eq_some hfind
    have hfits : s.heap.Fits (requestSize n) p := by simpa using List.find?_some hfind
    have hrest : sizeofHeapMem + mallocMinSize < s.heap.memLen p - requestSize n := by
      rcases hcuts with hzero | (hlt | hnone) | hrest
      · exact absurd (.inl hzero) hrefuse
      · exact absurd (.inr hlt) hrefuse
      · exact absurd hfits (hnone p hp)
      · exact hrest p hfind
    rw [hfind, HeapMem.allocate, ho.tiled.word_payload hp] at hcall
    cases htake : s.heap.takeBlock p (requestSize n) with
    | error fault =>
      rw [htake] at hcall
      cases hcall
    | ok h'' =>
      rw [htake] at hcall
      cases hcall
      exact .inr ⟨p, rfl, ho.takesCut hp hfits hrest htake⟩

/-! Every history. -/

structure Counted (s : Allocator) (bs : List Nat) : Prop where
  owns : Owns s.heap s.live bs
  used : s.heap.memUsedSize = occupied s.heap.used s.heap.heapMemEnd bs
  total : s.heap.heapMemBegin + s.heap.memTotalSize + sizeofHeapMem = s.heap.heapMemEnd

/-- The header of the first free block, at least, is not used. -/
theorem Owns.occupied_le (ho : Owns h live bs) :
    h.heapMemBegin + occupied h.used h.heapMemEnd bs + sizeofHeapMem ≤ h.heapMemEnd := by
  obtain ⟨pre, post, rfl⟩ := List.append_of_mem ho.first.member
  have ht := ho.tiled
  obtain ⟨hle, hend⟩ := ht.le_after
  have hsorted := ht.apart.imp fun hab : _ + sizeofHeapMem ≤ _ => (Nat.le_add_right _ _).trans hab
  rw [List.append_assoc, List.cons_append, List.append_cons] at hsorted
  have hleft := occupied_le h.used (List.pairwise_append.mp hsorted).1
  have hright := occupied_le h.used (List.pairwise_append.mp hsorted).2.1
  have hfirst : pre.head?.getD h.heapMemFree = h.heapMemBegin := by
    have hhead := ht.first
    cases pre <;> exact Option.some.inj hhead
  have hbegin := ht.begin_le (p := h.heapMemFree) (by simp)
  rw [hfirst] at hleft
  change _ ≤ _ - h.after post at hright
  rw [occupied_append, occupied, ho.first.unused, if_neg Bool.false_ne_true, Nat.zero_add]
  omega

theorem Counted.malloc (hc : Counted s bs) (hcuts : CutsBlock s (.malloc n))
    (hstep : heapStep s (.malloc n) = some s') : ∃ bs', Counted s' bs' := by
  have hsizes := hc.total
  have hheader : sizeofHeapMem = 12 := rfl
  obtain ⟨h', live'⟩ := s'
  obtain ⟨r, hcall, rfl⟩ := heapStep_malloc hstep
  rcases hc.owns.malloc_cuts hcuts hcall with ⟨rfl, rfl⟩ | ⟨p, rfl, hcut⟩
  · exact ⟨bs, hc⟩
  · obtain ⟨bs', ho', hbytes⟩ := hcut.owns
    have htop := ho'.tiled.top
    have hroom := ho'.occupied_le
    refine ⟨bs', ho', ?_, ?_⟩
    · change h'.memUsedSize = occupied h'.used h'.heapMemEnd bs'
      rw [hcut.used, hc.used, ← hbytes]
      exact Nat.mod_eq_of_lt (by omega)
    · change h'.heapMemBegin + h'.memTotalSize + sizeofHeapMem = h'.heapMemEnd
      rw [hcut.total, hcut.bounds.1, hcut.bounds.2]
      exact hsizes

theorem Counted.free {mem : Nat} (hc : Counted s bs) (hstep : heapStep s (.free mem) = some s') :
    ∃ bs', Counted s' bs' := by
  have hsizes := hc.total
  have hheader : sizeofHeapMem = 12 := rfl
  obtain ⟨h', live'⟩ := s'
  obtain ⟨hmem, hfree, rfl⟩ := heapStep_free hstep
  obtain ⟨h'', bs', hcall, ho', ⟨hbegin, hend⟩, hcounts⟩ := hc.owns.free_live hmem
  dsimp only at hfree
  rw [hfree] at hcall
  cases hcall
  have hbytes := hcounts.bytes
  have htop := hc.owns.tiled.top
  have hroom := hc.owns.occupied_le
  refine ⟨bs', ho', ?_, ?_⟩
  · change h'.memUsedSize = occupied h'.used h'.heapMemEnd bs'
    rw [hcounts.used, hc.used, sub32_of_le (by omega) (by omega)]
    omega
  · change h'.heapMemBegin + h'.memTotalSize + sizeofHeapMem = h'.heapMemEnd
    rw [hcounts.total, hbegin, hend]
    exact hsizes

theorem heapMemInit_counted (h₀ : HeapMem) (hr : Region beginAddr endAddr) :
    Counted ⟨heapMemInit h₀ beginAddr endAddr, []⟩ [align beginAddr] := by
  obtain ⟨howns, -, -⟩ := heapMemInit_owns h₀ hr
  have hfree := howns.first.unused
  have hinit : heapMemInit h₀ beginAddr endAddr = h₀.initialized (align beginAddr)
      (sub32 (align endAddr) sizeofHeapMem)
      (sub32 (sub32 (align endAddr) (align beginAddr)) (2 * sizeofHeapMem)) :=
    if_neg (not_le.mpr hr.large)
  refine ⟨howns, ?_, ?_⟩
  · rw [List.mem_singleton.mp howns.first.member] at hfree
    rw [occupied, hfree, hinit]
    rfl
  · obtain ⟨hordered, hinside, hlarge⟩ := hr
    rw [hinit]
    change align beginAddr + sub32 (sub32 (align endAddr) (align beginAddr)) (2 * sizeofHeapMem) +
      sizeofHeapMem = sub32 (align endAddr) sizeofHeapMem
    unfold sizeofHeapMem mallocMinSize sub32 align word at *
    omega

/-- The bytes of one used block are part of the sum. -/
theorem Tiled.le_occupied (ht : Tiled h bs) (hp : p ∈ bs) (hused : h.used p = true) :
    h.links.next p - p ≤ occupied h.used h.heapMemEnd bs := by
  obtain ⟨pre, post, rfl⟩ := List.append_of_mem hp
  rw [occupied_append, occupied, hused, if_pos rfl, ht.next]
  change h.after post - p ≤ _ + (h.after post - p + _)
  omega

theorem Counted.exact (hc : Counted s bs) : Exact s where
  used := hc.used.trans hc.owns.tiled.usedBytes_eq.symm
  released mem hmem := by
    obtain ⟨b, hb, hused, rfl⟩ := (hc.owns.payloads mem).mp hmem
    rw [Nat.add_sub_cancel, hc.used]
    exact hc.owns.tiled.le_occupied hb hused
  none hlive := by
    have hfree : ∀ b ∈ bs, ¬ s.heap.used b = true := by
      intro b hb hused
      have hmem := (hc.owns.payloads (b + sizeofHeapMem)).mpr ⟨b, hb, hused, rfl⟩
      rw [hlive] at hmem
      cases hmem
    rw [hc.used, ← hc.owns.tiled.usedBytes_eq, HeapMem.usedBytes, hc.owns.tiled.blocks_eq,
      List.filter_eq_nil_iff.mpr hfree]
    rfl
  total := by
    have hroom := hc.owns.occupied_le
    have hsizes := hc.total
    rw [hc.used]
    omega

theorem accounting_exact (hregion : Region beginAddr endAddr)
    (hrun : Reaches heapStep CutsBlock ⟨heapMemInit h₀ beginAddr endAddr, []⟩ s) : Exact s := by
  have hcounted : ∃ bs, Counted s bs := by
    refine hrun.invariant (fun s => ∃ bs, Counted s bs) ⟨_, heapMemInit_counted h₀ hregion⟩ ?_
    rintro s act s' ⟨bs, hc⟩ hcuts hstep
    cases act with
    | malloc n => exact hc.malloc hcuts hstep
    | free mem => exact hc.free hstep
  obtain ⟨bs, hc⟩ := hcounted
  exact hc.exact

theorem smallHeap_exact :
    ∃ s, runInputs heapStep CutsBlock fiveActs smallHeap = some s ∧ s.live.length = 3 ∧
      Exact s := by
  have hlive : (runInputs heapStep CutsBlock fiveActs smallHeap).map (fun s => s.live.length) =
      some 3 := by decide +kernel
  obtain ⟨s, hs, hlength⟩ := Option.map_eq_some_iff.mp hlive
  exact ⟨s, hs, hlength, accounting_exact ⟨by decide, by decide, by decide⟩ (.of_runInputs hs)⟩

/-- A block of 100 bytes is given for 92: it counts 104 when it is taken and 112
when it is released. -/
def looseFit : List HeapAct :=
  [.malloc 100, .malloc 20, .free 0x20000010, .malloc 92, .free 0x20000010, .free 0x20000080]

theorem looseFit_wraps : ∃ s, Reaches heapStep anyStep smallHeap s ∧ s.live = [] ∧
    s.heap.memUsedSize = 2 ^ 32 - 8 ∧ ¬ Exact s := by
  have hfacts : (runInputs heapStep anyStep looseFit smallHeap).map
      (fun s => (s.live, s.heap.memUsedSize)) = some ([], 2 ^ 32 - 8) := by decide +kernel
  obtain ⟨s, hs, heq⟩ := Option.map_eq_some_iff.mp hfacts
  obtain ⟨hlive, hused⟩ := Prod.mk.inj heq
  refine ⟨s, .of_runInputs hs, hlive, hused, fun hexact => ?_⟩
  rw [hexact.none hlive] at hused
  cases hused

end PosixRtos.Heap
