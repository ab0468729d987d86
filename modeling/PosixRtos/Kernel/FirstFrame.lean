import PosixRtos.Kernel.Pthread
import PosixRtos.Heap.Requests

/-! The first frame of a thread. `pthread_hw_stack_init` rounds the top of the stack up to a
word, so the frame reaches past the stack of a thread whose `stk_size` is no multiple of
four. -/
namespace PosixRtos.Kernel

open PosixRtos.Library.ByteMemory PosixRtos.Library.Runs
open PosixRtos.Heap (HeapMem Fault Region Owns Outcome heapMemInit heapStep malloc zalloc)

/-- The words one after the other from `stk` on. -/
def storeWords (mem : Memory) (stk : BitVec 32) : List (BitVec 32) → Memory
  | [] => mem
  | value :: values => storeWords (store32 mem stk.toNat value.toNat) (stk + 4) values

/-- `pthread_hw_stack_init` with what it writes. -/
def hwStackInit (mem : Memory) (entry parameter stack exit : BitVec 32) : Memory × BitVec 32 :=
  let stk := pthreadHwStackInit stack
  let mem := storeWords mem stk (List.replicate 16 0xdeadbeef)
  let mem := storeWords mem (stk + 32) [parameter, 0, 0, 0, 0, exit, entry, 0x01000000]
  (mem, stk)

/-- `struct stack_frame`, from the lowest address on. -/
def stackFrame (entry parameter exit : BitVec 32) : List (BitVec 32) :=
  List.replicate 8 0xdeadbeef ++ [parameter, 0, 0, 0, 0, exit, entry, 0x01000000]

/-- `sizeof(os_pthread_t)`. -/
def sizeofOsPthread : Nat := 88

structure FirstFrame where
  stkAddr : BitVec 32
  stkSize : BitVec 32
  sp : BitVec 32

/-- The stack of `__pthread_create`: the one of the attributes or one from the heap. -/
def takeStack (h : HeapMem) (attr : PthreadAttr) : Except Fault (HeapMem × Option Nat) :=
  if attr.stkAddr = 0 then malloc h attr.stkSize.toNat else .ok (h, some attr.stkAddr.toNat)

/-- `__pthread_create` as far as the heap and the stack go. -/
def createFrame (h : HeapMem) (mem : Memory) (attr : Option PthreadAttr)
    (startRoutine arg exitEntry : BitVec 32) :
    Except Fault (HeapMem × Memory × Option FirstFrame) := do
  let attr := attr.getD defaultAttr
  let (h, mem, pthread) ← zalloc h mem sizeofOsPthread
  match pthread with
  | none => .ok (h, mem, none)
  | some pthread =>
      let (h, stk) ← takeStack h attr
      match stk with
      | none => do
          let h ← PosixRtos.Heap.free h pthread
          .ok (h, mem, none)
      | some stk =>
          let stkAddr := BitVec.ofNat 32 stk
          let (mem, sp) :=
            hwStackInit mem startRoutine arg (stkAddr + attr.stkSize - 4) exitEntry
          .ok (h, mem, some ⟨stkAddr, attr.stkSize, sp⟩)

/-- `__pthread_int_init` with what it writes. -/
def intInitFrame (mem : Memory) (sp startRoutine arg exitEntry : BitVec 32) : Memory × BitVec 32 :=
  hwStackInit mem startRoutine arg (sp - 8) exitEntry

/-- The address of byte `i` from `sp` on. -/
def byteAt (sp : BitVec 32) (i : Nat) : Nat := (sp + BitVec.ofNat 32 i).toNat

/-- The frame is aligned and lies in the stack. -/
structure FirstFrame.Inside (frame : FirstFrame) : Prop where
  aligned : frame.sp.toNat % 4 = 0
  lower : ∀ i < stackFrameBytes.toNat, frame.stkAddr.toNat ≤ byteAt frame.sp i
  upper : ∀ i < stackFrameBytes.toNat,
    byteAt frame.sp i < frame.stkAddr.toNat + frame.stkSize.toNat

/-- A context that starts at `sp` and does not wrap round to the frame is kept. -/
def KeepsContext (sp : BitVec 32) : Prop :=
  ∀ mem startRoutine arg exitEntry j, j + (stackFrameBytes.toNat + 4) < 2 ^ 32 →
    (∀ i < stackFrameBytes.toNat,
      byteAt (intInitFrame mem sp startRoutine arg exitEntry).2 i ≠ byteAt sp j) ∧
    (intInitFrame mem sp startRoutine arg exitEntry).1 (byteAt sp j) = mem (byteAt sp j)

variable {mem : Memory} {stk sp stack : BitVec 32} {values : List (BitVec 32)} {x : Nat}

/-! Words. -/

theorem and_not_three (a : BitVec 32) : a &&& ~~~3#32 = (a >>> 2) <<< 2 := by
  have hmask : ∀ i : Fin 32, (~~~3#32).getLsbD i = decide (2 ≤ i.val) := by decide
  apply BitVec.eq_of_getLsbD_eq
  intro i hi
  rw [BitVec.getLsbD_and, hmask ⟨i, hi⟩, BitVec.getLsbD_shiftLeft, BitVec.getLsbD_ushiftRight]
  by_cases hlow : i < 2
  · simp [hlow]
  · simp [hlow, hi, show 2 ≤ i by omega, show 2 + (i - 2) = i by omega]

theorem toNat_align (a : BitVec 32) : (align a).toNat = (a.toNat + 3) % 2 ^ 32 / 4 * 4 := by
  have hstep : a + 4 - 1 = a + 3 := by bv_omega
  have hlt := Nat.mod_lt (a.toNat + 3) (show 0 < 2 ^ 32 by decide)
  unfold align
  rw [hstep]
  change ((a + 3#32) &&& ~~~3#32).toNat = _
  rw [and_not_three]
  simp only [BitVec.toNat_shiftLeft, BitVec.toNat_ushiftRight, BitVec.toNat_add,
    Nat.shiftLeft_eq, Nat.shiftRight_eq_div_pow, BitVec.toNat_ofNat]
  omega

theorem byteAt_eq (sp : BitVec 32) (i : Nat) : byteAt sp i = (sp.toNat + i) % 2 ^ 32 := by
  rw [byteAt, BitVec.toNat_add, BitVec.toNat_ofNat, Nat.add_mod_mod]

theorem byteAt_next (sp : BitVec 32) (i : Nat) : byteAt (sp + 4) i = byteAt sp (i + 4) := by
  rw [byteAt_eq, byteAt_eq, BitVec.toNat_add, Nat.mod_add_mod, Nat.add_assoc, Nat.add_comm i]
  rfl

theorem next_aligned (hstk : stk.toNat % 4 = 0) : (stk + 4).toNat % 4 = 0 := by
  rw [BitVec.toNat_add]
  change (stk.toNat + 4) % 2 ^ 32 % 4 = 0
  omega

theorem byteAt_word (hstk : stk.toNat % 4 = 0) {i : Nat} (hi : i < 4) :
    byteAt stk i = stk.toNat + i := by
  have hlt := stk.isLt
  rw [byteAt_eq, Nat.mod_eq_of_lt]
  omega

/-- An aligned word has no byte behind the end of the address space. -/
theorem store32_outside (hstk : stk.toNat % 4 = 0) {value : Nat}
    (hx : ∀ i < 4, x ≠ byteAt stk i) : store32 mem stk.toNat value x = mem x := by
  apply write_outside
  by_contra hin
  have hlen : (wordBytes value).length = 4 := rfl
  apply hx (x - stk.toNat) (by omega)
  rw [byteAt_word hstk (by omega)]
  omega

theorem storeWords_outside (hstk : stk.toNat % 4 = 0)
    (hx : ∀ i < 4 * values.length, x ≠ byteAt stk i) : storeWords mem stk values x = mem x := by
  induction values generalizing mem stk with
  | nil => rfl
  | cons value values ih =>
    rw [List.length_cons] at hx
    rw [storeWords, ih (next_aligned hstk), store32_outside hstk]
    · intro i hi
      exact hx i (by omega)
    · intro i hi
      rw [byteAt_next]
      exact hx (i + 4) (by omega)

theorem byteAt_inj {i j : Nat} (hi : i < 2 ^ 32) (hj : j < 2 ^ 32)
    (h : byteAt sp i = byteAt sp j) : i = j := by
  rw [byteAt_eq, byteAt_eq] at h
  have hlt := sp.isLt
  omega

theorem load32_storeWords (hstk : stk.toNat % 4 = 0) (hlen : 4 * values.length ≤ 2 ^ 32) {i : Nat}
    (hi : i < values.length) :
    load32 (storeWords mem stk values) (byteAt stk (4 * i)) = values[i].toNat := by
  induction values generalizing mem stk i with
  | nil => exact absurd hi (Nat.not_lt_zero i)
  | cons value values ih =>
    rw [List.length_cons] at hlen hi
    rw [storeWords]
    cases i with
    | zero =>
      rw [byteAt_word hstk (by decide), Nat.add_zero, List.getElem_cons_zero]
      refine (load32_congr fun x hlow hhigh => ?_).trans
        (@load32_store32 mem stk.toNat value.toNat value.isLt)
      apply storeWords_outside (next_aligned hstk)
      intro j hj heq
      have hword : x = byteAt stk (x - stk.toNat) := by
        rw [byteAt_word hstk (by omega)]
        omega
      rw [byteAt_next, hword] at heq
      have hsame := byteAt_inj (by omega) (by omega) heq
      omega
    | succ i =>
      have hrec := @ih (store32 mem stk.toNat value.toNat) (stk + 4) (next_aligned hstk)
        (by omega) i (by omega)
      rw [byteAt_next] at hrec
      exact hrec

/-! The frame. -/

theorem pthreadHwStackInit_aligned (stack : BitVec 32) :
    (pthreadHwStackInit stack).toNat % 4 = 0 := by
  have hmod : (align (stack + 4)).toNat % 4 = 0 := by
    rw [toNat_align]
    omega
  rw [pthreadHwStackInit, BitVec.toNat_sub]
  change (2 ^ 32 - 64 + (align (stack + 4)).toNat) % 2 ^ 32 % 4 = 0
  omega

theorem upper_half_aligned (hstk : stk.toNat % 4 = 0) : (stk + 32).toNat % 4 = 0 := by
  rw [BitVec.toNat_add]
  change (stk.toNat + 32) % 2 ^ 32 % 4 = 0
  omega

theorem byteAt_upper_half (stk : BitVec 32) (i : Nat) :
    byteAt (stk + 32) i = byteAt stk (32 + i) := by
  rw [byteAt_eq, byteAt_eq, BitVec.toNat_add, Nat.mod_add_mod, Nat.add_assoc]
  rfl

theorem hwStackInit_outside (entry parameter exit : BitVec 32)
    (hx : ∀ i < stackFrameBytes.toNat, x ≠ byteAt (pthreadHwStackInit stack) i) :
    (hwStackInit mem entry parameter stack exit).1 x = mem x := by
  have haligned := pthreadHwStackInit_aligned stack
  change ∀ i < 64, _ at hx
  unfold hwStackInit
  dsimp only
  rw [storeWords_outside (upper_half_aligned haligned)]
  · exact storeWords_outside haligned hx
  · intro i hi
    rw [byteAt_upper_half]
    change i < 32 at hi
    exact hx (32 + i) (by omega)

/-- The registers of the frame. -/
theorem hwStackInit_frame (mem : Memory) (entry parameter stack exit : BitVec 32) {i : Nat}
    (hi : i < (stackFrame entry parameter exit).length) :
    load32 (hwStackInit mem entry parameter stack exit).1
      (byteAt (hwStackInit mem entry parameter stack exit).2 (4 * i)) =
        (stackFrame entry parameter exit)[i].toNat := by
  have haligned := pthreadHwStackInit_aligned stack
  unfold hwStackInit stackFrame
  dsimp only
  change i < 16 at hi
  generalize pthreadHwStackInit stack = stk at haligned
  by_cases hlow : i < 8
  · -- the upper half is written above the word
    have hfill := @load32_storeWords mem stk (List.replicate 16 0xdeadbeef) haligned
      (by decide) i hi
    rw [List.getElem_replicate] at hfill
    rw [List.getElem_append_left hlow, List.getElem_replicate]
    refine (load32_congr fun x hbelow habove => ?_).trans hfill
    apply storeWords_outside (upper_half_aligned haligned)
    intro j hj heq
    change j < 32 at hj
    rw [byteAt_upper_half] at heq
    have hpos := byteAt_eq stk (4 * i)
    have hend := byteAt_eq stk (32 + j)
    have hlt := stk.isLt
    omega
  · rw [List.getElem_append_right (by rw [List.length_replicate]; omega)]
    have hupper := @load32_storeWords (storeWords mem stk (List.replicate 16 0xdeadbeef)) (stk + 32)
      [parameter, 0, 0, 0, 0, exit, entry, 0x01000000] (upper_half_aligned haligned)
      (by change 4 * 8 ≤ 2 ^ 32; decide) (i - 8) (by change i - 8 < 8; omega)
    rw [byteAt_upper_half, show 32 + 4 * (i - 8) = 4 * i by omega] at hupper
    exact hupper

/-- Rounding up takes the frame past the end of a stack with a broken size. -/
theorem frame_inside_iff {stkAddr stkSize : BitVec 32} (haddr : stkAddr.toNat % 4 = 0)
    (hsize : 256 ≤ stkSize.toNat) (hwrap : stkAddr.toNat + stkSize.toNat ≤ 2 ^ 32) :
    FirstFrame.Inside ⟨stkAddr, stkSize, pthreadHwStackInit (stkAddr + stkSize - 4)⟩ ↔
      stkSize.toNat % 4 = 0 := by
  have hsp : (pthreadHwStackInit (stkAddr + stkSize - 4)).toNat =
      (stkAddr.toNat + stkSize.toNat + 3) / 4 * 4 - 64 := by
    have htop : stkAddr + stkSize - 4 + 4 = stkAddr + stkSize := by bv_omega
    rw [pthreadHwStackInit, htop, BitVec.toNat_sub, toNat_align, BitVec.toNat_add]
    change (2 ^ 32 - 64 + _) % 2 ^ 32 = _
    omega
  constructor
  · intro hinside
    have hlast := hinside.upper 63 (by decide)
    rw [byteAt_eq] at hlast
    dsimp only at hlast
    rw [hsp] at hlast
    omega
  · intro hmod
    refine ⟨pthreadHwStackInit_aligned _, fun i hi => ?_, fun i hi => ?_⟩
    all_goals
      change i < 64 at hi
      rw [byteAt_eq]
      dsimp only
      rw [hsp]
      omega

/-- There are four bytes between the frame of a handler and the context. -/
theorem keepsContext (hsp : sp.toNat % 4 = 0) : KeepsContext sp := by
  intro mem startRoutine arg exitEntry j hj
  have hint : (pthreadHwStackInit (sp - 8)).toNat = (sp.toNat + (2 ^ 32 - 68)) % 2 ^ 32 := by
    have hlt := sp.isLt
    have htop : sp - 8 + 4 = sp - 4 := by bv_omega
    rw [pthreadHwStackInit, htop, BitVec.toNat_sub, toNat_align, BitVec.toNat_sub]
    change (2 ^ 32 - 64 + ((2 ^ 32 - 4 + sp.toNat) % 2 ^ 32 + 3) % 2 ^ 32 / 4 * 4) % 2 ^ 32 = _
    omega
  have hapart : ∀ i < stackFrameBytes.toNat,
      byteAt (pthreadHwStackInit (sp - 8)) i ≠ byteAt sp j := by
    intro i hi heq
    have hbytes : stackFrameBytes.toNat = 64 := rfl
    rw [byteAt_eq, byteAt_eq, hint] at heq
    have hlt := sp.isLt
    omega
  exact ⟨hapart, hwStackInit_outside _ _ _ fun i hi heq => hapart i hi heq.symm⟩

/-! The stack. -/

variable {h h' h₀ : HeapMem} {live bs : List Nat} {attr : PthreadAttr} {stkAddr : Nat}

theorem physAddrAlign_mod {addr : BitVec 32} (haddr : physAddrAlign addr = true) :
    addr.toNat % 4 = 0 := by
  have hsame : align addr = addr := by simpa [physAddrAlign] using haddr
  rw [← hsame, toNat_align]
  omega

/-- What `malloc` returns is a word address. -/
theorem malloc_aligned {n p : Nat} (ho : Owns h live bs) (hn : n ≠ 0)
    (hcall : malloc h n = .ok (h', some p)) :
    (∃ live' bs', Owns h' live' bs') ∧ p % 4 = 0 ∧ p < 2 ^ 32 := by
  have hout := PosixRtos.Heap.malloc_outcome ho hn
  rw [hcall] at hout
  cases hout with
  | took p _ _ howns _ =>
    obtain ⟨b, hb, hused, heq⟩ := (howns.payloads _).mp (List.mem_cons_self ..)
    have hmod := howns.tiled.aligned b (List.mem_append_left _ hb)
    have hroomy := howns.tiled.roomy b hb hused
    have htop := howns.tiled.top
    unfold PosixRtos.Heap.sizeofHeapMem at *
    exact ⟨⟨_, _, howns⟩, by omega, by omega⟩

theorem takeStack_aligned (ho : Owns h live bs)
    (haddr : attr.stkAddr ≠ 0 → attr.stkAddr.toNat % 4 = 0) (hsize : 256 ≤ attr.stkSize.toNat)
    (hcall : takeStack h attr = .ok (h', some stkAddr)) :
    (BitVec.ofNat 32 stkAddr).toNat % 4 = 0 := by
  unfold takeStack at hcall
  by_cases hzero : attr.stkAddr = 0
  · rw [if_pos hzero] at hcall
    obtain ⟨-, hmod, hlt⟩ := malloc_aligned ho (by omega) hcall
    rwa [BitVec.toNat_ofNat, Nat.mod_eq_of_lt hlt]
  · rw [if_neg hzero] at hcall
    cases hcall
    rw [BitVec.ofNat_toNat, BitVec.setWidth_eq]
    exact haddr hzero

/-- The steps of a creation that succeeds. -/
theorem createFrame_cases {mem' : Memory} {attr : Option PthreadAttr}
    {startRoutine arg exitEntry : BitVec 32} {frame : FirstFrame}
    (hcreate : createFrame h mem attr startRoutine arg exitEntry = .ok (h', mem', some frame)) :
    ∃ h₁ pthread stkAddr, malloc h sizeofOsPthread = .ok (h₁, some pthread) ∧
      takeStack h₁ (attr.getD defaultAttr) = .ok (h', some stkAddr) ∧
      frame = ⟨BitVec.ofNat 32 stkAddr, (attr.getD defaultAttr).stkSize,
        pthreadHwStackInit (BitVec.ofNat 32 stkAddr + (attr.getD defaultAttr).stkSize - 4)⟩ := by
  unfold createFrame zalloc at hcreate
  cases hthread : malloc h sizeofOsPthread with
  | error fault =>
    rw [hthread] at hcreate
    cases hcreate
  | ok r =>
    rw [hthread] at hcreate
    obtain ⟨h₁, _ | pthread⟩ := r
    · cases hcreate
    cases hstack : takeStack h₁ (attr.getD defaultAttr) with
    | error fault =>
      simp [Bind.bind, Except.bind, hstack] at hcreate
    | ok r =>
      obtain ⟨h₂, _ | stkAddr⟩ := r
      · simp only [Bind.bind, Except.bind, hstack] at hcreate
        cases hfree : PosixRtos.Heap.free h₂ pthread with
        | error fault => simp [hfree] at hcreate
        | ok h₃ => simp [hfree] at hcreate
      · simp only [Bind.bind, Except.bind, hstack, hwStackInit, Except.ok.injEq, Prod.mk.injEq,
          Option.some.injEq] at hcreate
        obtain ⟨rfl, -, hframe⟩ := hcreate
        exact ⟨h₁, pthread, stkAddr, rfl, hstack, hframe.symm⟩

theorem attrCheck_facts {attr : Option PthreadAttr} (hcheck : rawPthreadAttrCheck attr = true) :
    ((attr.getD defaultAttr).stkAddr ≠ 0 → (attr.getD defaultAttr).stkAddr.toNat % 4 = 0) ∧
      256 ≤ (attr.getD defaultAttr).stkSize.toNat := by
  cases attr with
  | none => decide
  | some attr =>
    rw [Option.getD_some]
    unfold rawPthreadAttrCheck at hcheck
    dsimp only at hcheck
    by_cases haddr : attr.stkAddr ≠ 0 ∧ physAddrAlign attr.stkAddr = false
    · rw [if_pos haddr] at hcheck
      cases hcheck
    rw [if_neg haddr] at hcheck
    by_cases hsize : attr.stkSize < pthreadStackSizeMin
    · rw [if_pos hsize] at hcheck
      cases hcheck
    refine ⟨fun hne => physAddrAlign_mod ?_, ?_⟩
    · cases hphys : physAddrAlign attr.stkAddr with
      | false => exact absurd ⟨hne, hphys⟩ haddr
      | true => rfl
    · exact BitVec.not_lt.mp hsize

/-- The first frame lies in the stack exactly if the size of the stack is a multiple of
four; the frame of a handler always leaves the context alone. -/
theorem first_frame_inside_iff {beginAddr endAddr : Nat} {s : PosixRtos.Heap.Allocator}
    {mem' : Memory} {attr : Option PthreadAttr} {startRoutine arg exitEntry : BitVec 32}
    {frame : FirstFrame} (hregion : Region beginAddr endAddr)
    (hrun : Reaches heapStep anyStep ⟨heapMemInit h₀ beginAddr endAddr, []⟩ s)
    (hcheck : rawPthreadAttrCheck attr = true)
    (hcreate : createFrame s.heap mem attr startRoutine arg exitEntry = .ok (h, mem', some frame))
    (hwrap : frame.stkAddr.toNat + frame.stkSize.toNat ≤ 2 ^ 32) :
    (frame.Inside ∧ ∀ sp : BitVec 32, sp.toNat % 4 = 0 → KeepsContext sp) ↔
      (attr.getD defaultAttr).stkSize.toNat % 4 = 0 := by
  obtain ⟨⟨bs, ho⟩, -, -⟩ := PosixRtos.Heap.reaches_owns hregion hrun
  obtain ⟨haddr, hsize⟩ := attrCheck_facts hcheck
  obtain ⟨h₁, pthread, stkAddr, hthread, hstack, hframe⟩ := createFrame_cases hcreate
  subst hframe
  obtain ⟨⟨live₁, bs₁, ho₁⟩, -, -⟩ := malloc_aligned ho (by decide) hthread
  have haligned := takeStack_aligned ho₁ haddr hsize hstack
  rw [and_iff_left fun sp hsp => keepsContext hsp]
  exact frame_inside_iff haligned hsize hwrap

/-- A user's stack; one byte more than the least size is accepted. -/
def userStack (stkSize : BitVec 32) : PthreadAttr where
  type := 0
  initTicks := 1
  initPrio := 16
  stkAddr := 0x20001000
  stkSize := stkSize

theorem createFrame_user {p : Nat} (hcall : malloc h sizeofOsPthread = .ok (h', some p))
    (hne : attr.stkAddr ≠ 0) (mem : Memory) (startRoutine arg exitEntry : BitVec 32) :
    ∃ mem', createFrame h mem (some attr) startRoutine arg exitEntry = .ok (h', mem',
      some ⟨attr.stkAddr, attr.stkSize, pthreadHwStackInit (attr.stkAddr + attr.stkSize - 4)⟩) := by
  have hsame : BitVec.ofNat 32 attr.stkAddr.toNat = attr.stkAddr := by
    rw [BitVec.ofNat_toNat, BitVec.setWidth_eq]
  refine ⟨(hwStackInit (PosixRtos.Heap.memset mem p 0 sizeofOsPthread) startRoutine arg
    (attr.stkAddr + attr.stkSize - 4) exitEntry).1, ?_⟩
  unfold createFrame zalloc takeStack
  simp only [Bind.bind, Except.bind, hcall, Option.getD_some, if_neg hne, hsame]
  rfl

theorem userStack_frame (stkSize : BitVec 32) :
    ∃ h mem', createFrame PosixRtos.Heap.smallHeap.heap (fun _ => 0) (some (userStack stkSize))
      0 0 0 = .ok (h, mem', some ⟨0x20001000, stkSize,
        pthreadHwStackInit (0x20001000 + stkSize - 4)⟩) := by
  have hthread : (malloc PosixRtos.Heap.smallHeap.heap sizeofOsPthread).toOption.map (·.2) =
      some (some 0x20000010) := by decide +kernel
  cases hcall : malloc PosixRtos.Heap.smallHeap.heap sizeofOsPthread with
  | error fault =>
    rw [hcall] at hthread
    cases hthread
  | ok r =>
    obtain ⟨h, p⟩ := r
    rw [hcall] at hthread
    obtain rfl : p = some 0x20000010 := Option.some.inj hthread
    have hne : (0x20001000 : BitVec 32) ≠ 0 := by decide
    exact ⟨h, @createFrame_user _ _ (userStack stkSize) _ hcall hne _ 0 0 0⟩

theorem default_size_is_inside :
    ∃ frame : FirstFrame, frame.sp = 0x200011c0 ∧ frame.Inside := by
  obtain ⟨h, mem', hcreate⟩ := userStack_frame 512
  have hrun : Reaches heapStep anyStep PosixRtos.Heap.smallHeap PosixRtos.Heap.smallHeap := .refl
  refine ⟨_, ?_, ((first_frame_inside_iff ⟨by decide, by decide, by decide⟩ hrun (by decide) hcreate
    (by decide)).mpr (by decide)).1⟩
  decide

/-- The frame of a stack of 257 bytes ends three bytes behind it. -/
theorem odd_stack_is_left : rawPthreadAttrCheck (some (userStack 257)) = true ∧
    ∃ h mem' frame, createFrame PosixRtos.Heap.smallHeap.heap (fun _ => 0)
      (some (userStack 257)) 0 0 0 = .ok (h, mem', some frame) ∧
      frame.stkAddr.toNat + frame.stkSize.toNat ≤ byteAt frame.sp 63 ∧ ¬ frame.Inside := by
  obtain ⟨h, mem', hcreate⟩ := userStack_frame 257
  refine ⟨by decide, h, mem', _, hcreate, by decide, fun hinside => ?_⟩
  exact absurd (hinside.upper 63 (by decide)) (by decide)

end PosixRtos.Kernel
