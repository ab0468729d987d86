import Mathlib.Algebra.Group.Nat.Defs
import PosixRtos.Kernel.IntrusiveList

/-! The heap of `stdlib.c`. A block starts with a header, an `heap_mem_t` of three
words: the links of the block list and the flag `used`. The list member comes
first in it, so that a link and its header have one address. Addresses and sizes
are 32-bit words. The calls run with `heap_mem_mutex` held and are taken one at a
time. -/
namespace PosixRtos.Heap

open PosixRtos.Library.Rings PosixRtos.Kernel.IntrusiveList

def word (n : Nat) : Nat := n % 2 ^ 32

/-- The difference of two words. -/
def sub32 (a b : Nat) : Nat := word (a + (2 ^ 32 - b))

def sizeofHeapMem : Nat := 12

def mallocMinSize : Nat := 12

/-- `ALIGN`: `& ~3` takes the two low bits away. -/
def align (size : Nat) : Nat := word (size + 3) - word (size + 3) % 4

structure HeapMem where
  links : Links Nat
  used : Nat → Bool
  memTotalSize : Nat
  memUsedSize : Nat
  heapMemBegin : Nat
  heapMemEnd : Nat
  heapMemFree : Nat

/-- `assertion` is a failed `ASSERT_KERNEL`, which does not return. `endless` is a
loop that goes on for longer than there are addresses. -/
inductive Fault where
  | assertion
  | endless
deriving DecidableEq

/-- The bound on the steps of a loop. -/
@[irreducible] def addresses : Nat := 2 ^ 32

/-- One free block and the end sentinel, linked to each other. -/
def HeapMem.initialized (h : HeapMem) (heapMemBegin heapMemEnd memTotalSize : Nat) : HeapMem :=
  let links := listInit h.links heapMemBegin
  let used := Function.update h.used heapMemBegin false
  let links := listInit links heapMemEnd
  let used := Function.update used heapMemEnd true
  { links := listInsertHead links heapMemBegin heapMemEnd
    used := used
    memTotalSize := memTotalSize
    memUsedSize := 0
    heapMemBegin := heapMemBegin
    heapMemEnd := heapMemEnd
    heapMemFree := heapMemBegin }

/-- A region that is too small is left alone. -/
def heapMemInit (h : HeapMem) (beginAddr endAddr : Nat) : HeapMem :=
  let alignBeginAddr := align beginAddr
  let alignEndAddr := align endAddr
  if sub32 alignEndAddr alignBeginAddr ≤ 2 * sizeofHeapMem + mallocMinSize then h
  else
    h.initialized alignBeginAddr (sub32 alignEndAddr sizeofHeapMem)
      (sub32 (sub32 alignEndAddr alignBeginAddr) (2 * sizeofHeapMem))

/-- The bytes between a header and the next one. -/
def HeapMem.memLen (h : HeapMem) (memPtr : Nat) : Nat :=
  sub32 (sub32 (h.links.next memPtr) memPtr) sizeofHeapMem

/-- The search of `malloc`: the first free block from `memPtr` on that is longer
than `size`. -/
def HeapMem.findBlock (h : HeapMem) (size : Nat) : Nat → Nat → Except Fault (Option Nat)
  | 0, _ => .error .endless
  | fuel + 1, memPtr =>
      if memPtr = h.heapMemEnd then .ok none
      else if h.used memPtr = false ∧ size < h.memLen memPtr then .ok (some memPtr)
      else h.findBlock size fuel (h.links.next memPtr)

/-- The rest of a block that is long enough becomes a free block. -/
def HeapMem.splitBlock (h : HeapMem) (memPtr size : Nat) : HeapMem :=
  if sizeofHeapMem + mallocMinSize < sub32 (h.memLen memPtr) size then
    let freeMemPtr := word (memPtr + size + sizeofHeapMem)
    { h with
      used := Function.update h.used freeMemPtr false
      links := listInsertHead (listInit h.links freeMemPtr) memPtr freeMemPtr }
  else h

def HeapMem.markUsed (h : HeapMem) (memPtr size : Nat) : HeapMem :=
  { h with
    used := Function.update h.used memPtr true
    memUsedSize := word (h.memUsedSize + (size + sizeofHeapMem)) }

/-- The loop that moves `heap_mem_free` past the used blocks. -/
def HeapMem.skipUsed (h : HeapMem) : Nat → Nat → Except Fault Nat
  | 0, _ => .error .endless
  | fuel + 1, memPtr =>
      if h.used memPtr = true ∧ memPtr ≠ h.heapMemEnd then h.skipUsed fuel (h.links.next memPtr)
      else .ok memPtr

def HeapMem.advanceFree (h : HeapMem) : Except Fault HeapMem := do
  let memPtr ← h.skipUsed addresses h.heapMemFree
  if h.used memPtr = true ∨ memPtr = h.heapMemEnd then .error .assertion
  else .ok { h with heapMemFree := memPtr }

def HeapMem.takeBlock (h : HeapMem) (memPtr size : Nat) : Except Fault HeapMem :=
  let h := (h.splitBlock memPtr size).markUsed memPtr size
  if h.heapMemFree = memPtr then h.advanceFree else .ok h

/-- The rest of `malloc` after the search. -/
def HeapMem.allocate (h : HeapMem) (size : Nat) : Option Nat → Except Fault (HeapMem × Option Nat)
  | none => .ok (h, none)
  | some memPtr => do
      let h ← h.takeBlock memPtr size
      .ok (h, some (word (memPtr + sizeofHeapMem)))

/-- The size that `malloc` looks for. -/
def requestSize (size : Nat) : Nat := align (if size < mallocMinSize then mallocMinSize else size)

def malloc (h : HeapMem) (size : Nat) : Except Fault (HeapMem × Option Nat) :=
  if size = 0 then .ok (h, none)
  else
    let size := requestSize size
    if sub32 h.memTotalSize h.memUsedSize < size then .ok (h, none)
    else do
      let found ← h.findBlock size addresses h.heapMemFree
      h.allocate size found

/-- If the next block is free, it is taken out of the list. -/
def HeapMem.mergeNext (h : HeapMem) (memPtr : Nat) : HeapMem :=
  let nextMemPtr := h.links.next memPtr
  if h.used nextMemPtr = false then { h with links := listRemoveNode h.links nextMemPtr } else h

/-- If the previous block is free, the block itself is taken out. The second
component is `__free_mem`. -/
def HeapMem.mergePrev (h : HeapMem) (memPtr : Nat) : HeapMem × Nat :=
  let prevMemPtr := h.links.prev memPtr
  if h.used prevMemPtr = false then
    ({ h with links := listRemoveNode h.links memPtr }, prevMemPtr)
  else (h, memPtr)

def HeapMem.markFree (h : HeapMem) (memPtr : Nat) : HeapMem :=
  { h with used := Function.update h.used memPtr false }

/-- `heap_mem_free` moves down to `__free_mem`. -/
def HeapMem.lowerFree (h : HeapMem) (freeMem : Nat) : HeapMem :=
  if freeMem < h.heapMemFree then { h with heapMemFree := freeMem } else h

/-- The part of `free` that runs with the mutex held. -/
def HeapMem.release (h : HeapMem) (memPtr : Nat) : HeapMem :=
  let h := h.markFree memPtr
  let size := sub32 (h.links.next memPtr) memPtr
  let (h, freeMem) := (h.mergeNext memPtr).mergePrev memPtr
  let h := h.lowerFree freeMem
  { h with memUsedSize := sub32 h.memUsedSize size }

def free (h : HeapMem) (mem : Nat) : Except Fault HeapMem :=
  if mem = 0 then .ok h
  else if mem ≤ h.heapMemBegin ∨ h.heapMemEnd ≤ mem then .ok h
  else if mem ≠ align mem then .error .assertion
  else
    let memPtr := sub32 mem sizeofHeapMem
    if h.used memPtr ≠ true then .error .assertion else .ok (h.release memPtr)

end PosixRtos.Heap
