import PosixRtos.Library.ByteMemory

/-! A window onto a byte memory. The `size` bytes from `base` on are held in a
buffer of their own, by offset, and are seen there instead of in the memory. -/
namespace PosixRtos.Library.Overlay

open PosixRtos.Library.ByteMemory

/-- The memory as it is seen through the window. -/
def overlay (mem : Memory) (base size : Nat) (held : Memory) : Memory := fun x =>
  if base ≤ x ∧ x < base + size then held (x - base) else mem x

/-- The bytes of the memory from `base` on, by offset. -/
def load (mem : Memory) (base : Nat) : Memory := fun i => mem (base + i)

/-- The memory after the window has been copied back to it. -/
def store (mem : Memory) (base size : Nat) (held : Memory) : Memory :=
  write mem base (read held 0 size)

variable {mem mem' held held' : Memory} {base size x : Nat}

theorem overlay_inside (hbase : base ≤ x) (hsize : x < base + size) :
    overlay mem base size held x = held (x - base) := if_pos ⟨hbase, hsize⟩

theorem overlay_outside (hx : x < base ∨ base + size ≤ x) :
    overlay mem base size held x = mem x := by
  apply if_neg
  omega

/-- Copying back is what makes the window part of the memory. -/
theorem store_eq_overlay (mem : Memory) (base size : Nat) (held : Memory) :
    store mem base size held = overlay mem base size held := by
  funext x
  rw [store, write_read_apply, overlay, Nat.zero_add]

theorem store_outside (hx : x < base ∨ base + size ≤ x) : store mem base size held x = mem x := by
  rw [store_eq_overlay, overlay_outside hx]

/-- Only the bytes outside of the window are those of the memory. -/
theorem overlay_congr (hmem : ∀ x, x < base ∨ base + size ≤ x → mem x = mem' x)
    (hheld : ∀ i < size, held i = held' i) :
    overlay mem base size held = overlay mem' base size held' := by
  funext x
  by_cases hx : base ≤ x ∧ x < base + size
  · rw [overlay_inside hx.1 hx.2, overlay_inside hx.1 hx.2]
    exact hheld _ (by omega)
  · rw [overlay_outside (by omega), overlay_outside (by omega)]
    exact hmem x (by omega)

/-- A window that has just been loaded shows the memory itself. -/
@[simp] theorem overlay_load (mem : Memory) (base size : Nat) :
    overlay mem base size (load mem base) = mem := by
  funext x
  by_cases hx : base ≤ x ∧ x < base + size
  · rw [overlay_inside hx.1 hx.2, load, Nat.add_sub_of_le hx.1]
  · exact overlay_outside (by omega)

/-- A window that agrees with the memory is not seen. -/
theorem overlay_same (hsame : ∀ i < size, held i = mem (base + i)) :
    overlay mem base size held = mem :=
  calc overlay mem base size held = overlay mem base size (load mem base) :=
        overlay_congr (fun _ _ => rfl) hsame
    _ = mem := overlay_load mem base size

/-- Bytes that are written into the window appear at its place in the memory. -/
theorem overlay_write {offset : Nat} {bytes : List Byte} (hfits : offset + bytes.length ≤ size) :
    overlay mem base size (write held offset bytes) =
      write (overlay mem base size held) (base + offset) bytes := by
  funext x
  by_cases hx : base ≤ x ∧ x < base + size
  · rw [overlay_inside hx.1 hx.2]
    unfold write
    rw [overlay_inside hx.1 hx.2]
    by_cases hoffset : base + offset ≤ x
    · rw [if_pos (by omega), if_pos hoffset, Nat.sub_sub]
    · rw [if_neg (by omega), if_neg hoffset]
  · rw [overlay_outside (by omega), write_outside (by omega), overlay_outside (by omega)]

end PosixRtos.Library.Overlay
