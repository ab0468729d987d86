import Mathlib.Tactic

/-! Byte-addressed memory with little-endian 32-bit words. -/
namespace PosixRtos.Library.ByteMemory

abbrev Byte := BitVec 8

abbrev Memory := Nat → Byte

/-- The `n` bytes from address `a` on. -/
def read (mem : Memory) (a n : Nat) : List Byte := (List.range n).map fun i => mem (a + i)

/-- Memory after the bytes `bs` have been copied to address `a`. -/
def write (mem : Memory) (a : Nat) (bs : List Byte) : Memory := fun x =>
  if a ≤ x then (bs[x - a]?).getD (mem x) else mem x

def load32 (mem : Memory) (a : Nat) : Nat :=
  (mem a).toNat + 256 * (mem (a + 1)).toNat + 65536 * (mem (a + 2)).toNat +
    16777216 * (mem (a + 3)).toNat

/-- The four bytes of a word. -/
def wordBytes (value : Nat) : List Byte :=
  [BitVec.ofNat 8 value, BitVec.ofNat 8 (value / 256), BitVec.ofNat 8 (value / 65536),
    BitVec.ofNat 8 (value / 16777216)]

def store32 (mem : Memory) (a value : Nat) : Memory := write mem a (wordBytes value)

variable {mem mem' : Memory} {a b n x : Nat} {bs : List Byte}

@[simp] theorem length_read (mem : Memory) (a n : Nat) : (read mem a n).length = n := by
  simp [read]

theorem write_inside {i : Nat} (hi : i < bs.length) : write mem a bs (a + i) = bs[i] := by
  simp [write, hi]

theorem write_outside (hx : x < a ∨ a + bs.length ≤ x) : write mem a bs x = mem x := by
  unfold write
  split
  · next hax =>
    have hlen : bs.length ≤ x - a := by omega
    rw [List.getElem?_eq_none hlen, Option.getD_none]
  · rfl

@[simp] theorem write_nil (mem : Memory) (a : Nat) : write mem a [] = mem := by
  funext x
  exact write_outside (by rw [List.length_nil]; omega)

theorem write_singleton (mem : Memory) (a : Nat) (b : Byte) (x : Nat) :
    write mem a [b] x = if x = a then b else mem x := by
  split
  next hx =>
    subst hx
    exact write_inside (i := 0) (by simp)
  next hx => exact write_outside (by rw [List.length_singleton]; omega)

/-- Two copies one behind the other are one copy. -/
theorem write_append (mem : Memory) (a : Nat) (bs bs' : List Byte) :
    write (write mem a bs) (a + bs.length) bs' = write mem a (bs ++ bs') := by
  funext x
  unfold write
  by_cases hax : a ≤ x
  · by_cases hlen : a + bs.length ≤ x
    · rw [if_pos hlen, if_pos hax, if_pos hax, List.getElem?_append_right (by omega),
        List.getElem?_eq_none (by omega : bs.length ≤ x - a), Option.getD_none, Nat.sub_sub]
    · rw [if_neg hlen, if_pos hax, if_pos hax, List.getElem?_append_left (by omega)]
  · rw [if_neg (by omega), if_neg hax, if_neg hax]

theorem take_read (mem : Memory) (a n k : Nat) :
    (read mem a n).take k = read mem a (min k n) := by
  unfold read
  rw [← List.map_take, List.take_range]

theorem read_congr (h : ∀ x, a ≤ x → x < a + n → mem x = mem' x) :
    read mem a n = read mem' a n := by
  unfold read
  apply List.map_congr_left
  intro i hi
  rw [List.mem_range] at hi
  exact h (a + i) (by omega) (by omega)

theorem read_write (mem : Memory) (a : Nat) (bs : List Byte) :
    read (write mem a bs) a bs.length = bs := by
  apply List.ext_getElem
  · simp
  · intro i hi hi'
    simp only [read, List.getElem_map, List.getElem_range]
    exact write_inside hi'

/-- A copy does not touch a region that lies apart from it. -/
theorem read_write_apart (h : b + n ≤ a ∨ a + bs.length ≤ b) :
    read (write mem a bs) b n = read mem b n := by
  apply read_congr
  intro x hx hxn
  exact write_outside (by omega)

theorem load32_congr (h : ∀ x, a ≤ x → x < a + 4 → mem x = mem' x) :
    load32 mem a = load32 mem' a := by
  unfold load32
  rw [h a (by omega) (by omega), h (a + 1) (by omega) (by omega), h (a + 2) (by omega) (by omega),
    h (a + 3) (by omega) (by omega)]

theorem load32_write_apart (h : b + 4 ≤ a ∨ a + bs.length ≤ b) :
    load32 (write mem a bs) b = load32 mem b := by
  apply load32_congr
  intro x hx hxn
  exact write_outside (by omega)

@[simp] theorem length_wordBytes (value : Nat) : (wordBytes value).length = 4 := rfl

theorem load32_store32 {value : Nat} (hvalue : value < 2 ^ 32) :
    load32 (store32 mem a value) a = value := by
  have hbyte : ∀ i (hi : i < 4), store32 mem a value (a + i) = (wordBytes value)[i] :=
    fun i hi => write_inside hi
  have h₀ := hbyte 0 (by decide)
  rw [add_zero] at h₀
  unfold load32
  rw [h₀, hbyte 1 (by decide), hbyte 2 (by decide), hbyte 3 (by decide)]
  simp only [wordBytes, List.getElem_cons_zero, List.getElem_cons_succ, BitVec.toNat_ofNat]
  omega

/-- A word that has been read is written back byte by byte. -/
theorem wordBytes_load32 (mem : Memory) (a : Nat) : wordBytes (load32 mem a) = read mem a 4 := by
  have h₀ := (mem a).isLt
  have h₁ := (mem (a + 1)).isLt
  have h₂ := (mem (a + 2)).isLt
  have h₃ := (mem (a + 3)).isLt
  have hread : read mem a 4 = [mem a, mem (a + 1), mem (a + 2), mem (a + 3)] := rfl
  rw [hread]
  unfold wordBytes load32
  refine congrArg₂ _ ?_ (congrArg₂ _ ?_ (congrArg₂ _ ?_ (congrArg₂ _ ?_ rfl))) <;>
    · apply BitVec.eq_of_toNat_eq
      rw [BitVec.toNat_ofNat]
      omega

theorem load32_lt (mem : Memory) (a : Nat) : load32 mem a < 2 ^ 32 := by
  have h₀ := (mem a).isLt
  have h₁ := (mem (a + 1)).isLt
  have h₂ := (mem (a + 2)).isLt
  have h₃ := (mem (a + 3)).isLt
  unfold load32
  omega

/-- Equal words have equal bytes. -/
theorem load32_eq_iff : load32 mem a = load32 mem' b ↔ ∀ i < 4, mem (a + i) = mem' (b + i) := by
  constructor
  · intro h i hi
    have hbytes : read mem a 4 = read mem' b 4 := by
      rw [← wordBytes_load32, ← wordBytes_load32, h]
    have hmap := List.map_inj_left.mp hbytes
    exact hmap i (List.mem_range.mpr hi)
  · intro h
    have h₀ := h 0 (by decide)
    unfold load32
    rw [show mem a = mem' b from h₀, h 1 (by decide), h 2 (by decide), h 3 (by decide)]

/-- A copy from one place to another, byte by byte. -/
theorem write_read_apply (mem mem' : Memory) (a b n x : Nat) : write mem a (read mem' b n) x =
    if a ≤ x ∧ x < a + n then mem' (b + (x - a)) else mem x := by
  split
  · next hx =>
    obtain ⟨i, rfl⟩ := Nat.exists_eq_add_of_le hx.1
    rw [write_inside (by rw [length_read]; omega), Nat.add_sub_cancel_left]
    simp [read]
  · next hx => exact write_outside (by rw [length_read]; omega)

/-- A word inside a cleared region is zero. -/
theorem load32_clear (hab : a ≤ b) (hbn : b + 4 ≤ a + n) :
    load32 (write mem a (List.replicate n 0)) b = 0 := by
  have hbyte : ∀ x, a ≤ x → x < a + n → write mem a (List.replicate n 0) x = 0 := by
    intro x hax hxn
    obtain ⟨i, rfl⟩ := Nat.exists_eq_add_of_le hax
    rw [write_inside (by rw [List.length_replicate]; omega), List.getElem_replicate]
  unfold load32
  rw [hbyte b (by omega) (by omega), hbyte (b + 1) (by omega) (by omega),
    hbyte (b + 2) (by omega) (by omega), hbyte (b + 3) (by omega) (by omega)]
  rfl

end PosixRtos.Library.ByteMemory
