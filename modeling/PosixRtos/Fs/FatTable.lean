import PosixRtos.Fs.Window

/-! The entries of the FAT. Those of FAT12 are a byte and a half long: two of them share a
byte, and one may lie in two sectors. -/
namespace PosixRtos.Fs

open PosixRtos.Library.ByteMemory PosixRtos.Library.Overlay PosixRtos.Library.Runs
open PosixRtos.Heap (word sub32)

/-- What `get_fat` and `create_chain` return when a request has failed. -/
def diskError : Nat := 0xffffffff

def getFat (faults : Faults) (g : Geometry) (s : FatFs) (clst : Nat) : FatFs × Nat :=
  if clst < 2 ∨ g.nFatent ≤ clst then (s, 1)
  else
    match g.fsType with
    | .fat12 =>
        let bc := clst + clst / 2
        let (s, res) := moveWindow faults g s (word (g.fatbase + bc / ss))
        if res ≠ .ok then (s, diskError)
        else
          let wc := (s.win (bc % ss)).toNat
          let bc := bc + 1
          let (s, res) := moveWindow faults g s (word (g.fatbase + bc / ss))
          if res ≠ .ok then (s, diskError)
          else
            let wc := wc ||| (s.win (bc % ss)).toNat <<< 8
            (s, if clst &&& 1 ≠ 0 then wc >>> 4 else wc &&& 0xfff)
    | .fat16 =>
        let (s, res) := moveWindow faults g s (word (g.fatbase + clst / (ss / 2)))
        if res ≠ .ok then (s, diskError)
        else
          let p := clst * 2 % ss
          (s, (s.win p).toNat ||| (s.win (p + 1)).toNat <<< 8)
    | .fat32 =>
        let (s, res) := moveWindow faults g s (word (g.fatbase + clst / (ss / 4)))
        if res ≠ .ok then (s, diskError)
        else (s, load32 s.win (clst * 4 % ss) &&& 0x0fffffff)

def putFat (faults : Faults) (g : Geometry) (s : FatFs) (clst val : Nat) : FatFs × FResult :=
  if clst < 2 ∨ g.nFatent ≤ clst then (s, .intErr)
  else
    match g.fsType with
    | .fat12 =>
        let bc := clst + clst / 2
        let (s, res) := moveWindow faults g s (word (g.fatbase + bc / ss))
        if res ≠ .ok then (s, res)
        else
          let p := s.win (bc % ss)
          let s := s.put (bc % ss) [if clst &&& 1 ≠ 0 then
            (p &&& 0x0f#8) ||| (BitVec.ofNat 8 val <<< 4) else BitVec.ofNat 8 val]
          let bc := bc + 1
          let (s, res) := moveWindow faults g s (word (g.fatbase + bc / ss))
          if res ≠ .ok then (s, res)
          else
            let p := s.win (bc % ss)
            (s.put (bc % ss) [if clst &&& 1 ≠ 0 then BitVec.ofNat 8 (val >>> 4)
              else (p &&& 0xf0#8) ||| (BitVec.ofNat 8 (val >>> 8) &&& 0x0f#8)], .ok)
    | .fat16 =>
        let (s, res) := moveWindow faults g s (word (g.fatbase + clst / (ss / 2)))
        if res ≠ .ok then (s, res)
        else
          (s.put (clst * 2 % ss) [BitVec.ofNat 8 val, BitVec.ofNat 8 (val >>> 8)], .ok)
    | .fat32 =>
        let (s, res) := moveWindow faults g s (word (g.fatbase + clst / (ss / 4)))
        if res ≠ .ok then (s, res)
        else
          let p := clst * 4 % ss
          (s.put p (wordBytes (val ||| (load32 s.win p &&& 0xf0000000))), .ok)

/-! The entry as a number of the medium's bytes. -/

/-- The first byte of an entry. -/
def Geometry.entryAddr (g : Geometry) (clst : Nat) : Nat :=
  match g.fsType with
  | .fat12 => ss * g.fatbase + (clst + clst / 2)
  | .fat16 => ss * g.fatbase + 2 * clst
  | .fat32 => ss * g.fatbase + 4 * clst

def fatEntry (g : Geometry) (mem : Memory) (clst : Nat) : Nat :=
  let a := g.entryAddr clst
  match g.fsType with
  | .fat12 =>
      let wc := (mem a).toNat + 256 * (mem (a + 1)).toNat
      if clst % 2 = 1 then wc / 16 else wc % 4096
  | .fat16 => (mem a).toNat + 256 * (mem (a + 1)).toNat
  | .fat32 => load32 mem a % 2 ^ 28

/-- The bytes of the first copy of the FAT. -/
def Geometry.FatArea (g : Geometry) (x : Nat) : Prop :=
  ss * g.fatbase ≤ x ∧ x < ss * (g.fatbase + g.fsize)

/-- The entry does not lie in one sector. -/
def Geometry.Straddles (g : Geometry) (clst : Nat) : Prop :=
  g.fsType = .fat12 ∧ (clst + clst / 2) % ss = ss - 1

/-- What a change of the entry of `clst` leaves alone. -/
structure Changed (g : Geometry) (clst : Nat) (s s' : FatFs) : Prop where
  coherent : Coherent s'
  others : ∀ c < g.nFatent, c ≠ clst → fatEntry g s'.view c = fatEntry g s.view c
  outside : ∀ x, g.Counts x → ¬ g.FatArea x → s'.view x = s.view x
  lastClust : s'.lastClust = s.lastClust
  freeClust : s'.freeClust = s.freeClust
  fsiFlag : s'.fsiFlag = s.fsiFlag

variable {faults : Faults} {vol : Volume} {s s' : FatFs} {mem mem' : Memory} {clst c val : Nat}

/-! Arithmetic of the bytes. -/

theorem or_shift8 (a b : Byte) : a.toNat ||| b.toNat <<< 8 = a.toNat + 256 * b.toNat := by
  have ha := a.isLt
  rw [Nat.or_comm, ← Nat.shiftLeft_add_eq_or_of_lt (by omega), Nat.shiftLeft_eq]
  omega

theorem and_odd (n : Nat) : (n &&& 1 ≠ 0) = (n % 2 = 1) := by
  rw [Nat.and_one_is_mod]
  simp

theorem and_low (p : Byte) : (p &&& 0x0f#8).toNat = p.toNat % 16 := by
  rw [BitVec.toNat_and]
  exact Nat.and_two_pow_sub_one_eq_mod _ 4

theorem and_high : ∀ p : Byte, (p &&& 0xf0#8).toNat = p.toNat / 16 * 16 := by decide +kernel

theorem joined_odd (p q : Byte) :
    ((p &&& 0x0f#8) ||| (q <<< 4)).toNat = p.toNat % 16 + 16 * (q.toNat % 16) := by
  have hshift : (q <<< 4).toNat = (q.toNat % 16) <<< 4 := by
    rw [BitVec.toNat_shiftLeft, Nat.shiftLeft_eq, Nat.shiftLeft_eq]
    omega
  have hlow : p.toNat % 16 < 2 ^ 4 := Nat.mod_lt _ (by decide)
  rw [BitVec.toNat_or, and_low, hshift, Nat.or_comm, ← Nat.shiftLeft_add_eq_or_of_lt hlow,
    Nat.shiftLeft_eq]
  omega

theorem joined_even (p q : Byte) :
    ((p &&& 0xf0#8) ||| (q &&& 0x0f#8)).toNat = p.toNat / 16 * 16 + q.toNat % 16 := by
  have hlow : q.toNat % 16 < 2 ^ 4 := Nat.mod_lt _ (by decide)
  have hor := Nat.shiftLeft_add_eq_or_of_lt hlow (p.toNat / 16)
  rw [Nat.shiftLeft_eq] at hor
  rw [BitVec.toNat_or, and_high, and_low]
  exact hor.symm

/-! Where an entry lies. -/

theorem fatEntry_lt (g : Geometry) (mem : Memory) (clst : Nat) :
    fatEntry g mem clst < 2 ^ 28 := by
  have h₀ := (mem (g.entryAddr clst)).isLt
  have h₁ := (mem (g.entryAddr clst + 1)).isLt
  unfold fatEntry
  dsimp only
  split
  · split <;> omega
  · omega
  · exact Nat.mod_lt _ (by decide)

/-- The bytes of an entry that is there are in the FAT. -/
theorem entry_inside (hlt : clst < vol.nFatent) {k : Nat}
    (hk : k < 2 ∨ vol.fsType = .fat32 ∧ k < 4) :
    vol.FatArea (vol.entryAddr clst + k) := by
  have hfits := vol.fat_fits
  unfold Geometry.FatArea Geometry.entryAddr
  unfold fatBytes at hfits
  rw [Nat.mul_add]
  rcases hk with hk | ⟨htype, hk⟩
  · split <;> simp_all <;> omega
  · rw [htype] at hfits ⊢
    dsimp only at hfits ⊢
    omega

theorem fatArea_counts {x : Nat} (hx : vol.FatArea x) : vol.Counts x := by
  have hbelow := vol.fats_below
  have hdata := vol.data_fits
  unfold Geometry.FatArea at hx
  unfold Geometry.Counts Geometry.Mirror noSector
  unfold ss at *
  have hclusters : 0 < (vol.nFatent - 2) * vol.csize :=
    Nat.mul_pos (by have := vol.clusters; omega) vol.csize_pos
  rcases vol.nFats_cases with hone | htwo
  · rw [hone] at hbelow ⊢
    omega
  · rw [htwo] at hbelow ⊢
    omega

/-- Only its own bytes make an entry. -/
theorem fatEntry_bytes {g : Geometry} (hmem : ∀ k, (k < 2 ∨ g.fsType = .fat32 ∧ k < 4) →
    mem (g.entryAddr c + k) = mem' (g.entryAddr c + k)) :
    fatEntry g mem c = fatEntry g mem' c := by
  have h₀ : mem (g.entryAddr c) = mem' (g.entryAddr c) := hmem 0 (.inl (by omega))
  have h₁ := hmem 1 (.inl (by omega))
  unfold fatEntry
  dsimp only
  split
  · rw [h₀, h₁]
  · rw [h₀, h₁]
  next htype =>
    rw [load32_eq_iff.mpr]
    intro i hi
    exact hmem i (.inr ⟨htype, hi⟩)

theorem fatEntry_congr (hlt : clst < vol.nFatent)
    (hmem : ∀ x, vol.FatArea x → mem x = mem' x) :
    fatEntry vol.toGeometry mem clst = fatEntry vol.toGeometry mem' clst :=
  fatEntry_bytes fun _ hk => hmem _ (entry_inside hlt hk)

theorem Kept.entry (hkept : Kept vol.toGeometry s s') (hlt : clst < vol.nFatent) :
    fatEntry vol.toGeometry s'.view clst = fatEntry vol.toGeometry s.view clst :=
  fatEntry_congr hlt fun x hx => hkept.view x (fatArea_counts hx)

theorem Kept.changed (hkept : Kept vol.toGeometry s s') (clst : Nat) :
    Changed vol.toGeometry clst s s' where
  coherent := hkept.coherent
  others _ hlt _ := hkept.entry hlt
  outside x hx _ := hkept.view x hx
  lastClust := hkept.lastClust
  freeClust := hkept.freeClust
  fsiFlag := hkept.fsiFlag

theorem Changed.trans {s'' : FatFs} (h : Changed vol.toGeometry clst s s')
    (h' : Changed vol.toGeometry clst s' s'') : Changed vol.toGeometry clst s s'' where
  coherent := h'.coherent
  others c hlt hne := (h'.others c hlt hne).trans (h.others c hlt hne)
  outside x hx hfat := (h'.outside x hx hfat).trans (h.outside x hx hfat)
  lastClust := h'.lastClust.trans h.lastClust
  freeClust := h'.freeClust.trans h.freeClust
  fsiFlag := h'.fsiFlag.trans h.fsiFlag

/-- The window at byte `b` of the FAT. -/
structure AtByte (vol : Volume) (s : FatFs) (b : Nat) : Prop where
  valid : s.winsect < noSector
  place : ss * s.winsect + b % ss = ss * vol.fatbase + b

theorem moveFat_spec (hc : Coherent s) {b : Nat} (hb : b < ss * vol.fsize) {r : FResult}
    (hcall : moveWindow faults vol.toGeometry s (word (vol.fatbase + b / ss)) = (s', r)) :
    Kept vol.toGeometry s s' ∧ (r = .ok ∧ AtByte vol s' b ∨ r = .diskErr ∧ Faulty faults) := by
  obtain ⟨hkept, hr⟩ := moveWindow_spec hc hcall
  refine ⟨hkept, hr.imp_left ?_⟩
  rintro ⟨rfl, hsector⟩
  have hdiv : b / ss < vol.fsize := Nat.div_lt_of_lt_mul hb
  have hfat : vol.FatArea (ss * (vol.fatbase + b / ss)) := by
    unfold Geometry.FatArea ss at *
    omega
  have hvalid : vol.fatbase + b / ss < noSector := Nat.lt_of_mul_lt_mul_left (fatArea_counts hfat).1
  have hword : word (vol.fatbase + b / ss) = vol.fatbase + b / ss := by
    apply Nat.mod_eq_of_lt
    unfold noSector at hvalid
    omega
  rw [hword] at hsector
  refine ⟨rfl, ?_, ?_⟩
  · rwa [hsector]
  · rw [hsector]
    unfold ss
    omega

theorem AtByte.win {b k : Nat} (h : AtByte vol s b) (hk : b % ss + k < ss) :
    s.win (b % ss + k) = s.view (ss * vol.fatbase + b + k) := by
  rw [← view_window hk, ← Nat.add_assoc, h.place]

theorem AtByte.put {b : Nat} {bytes : List Byte} (h : AtByte vol s b)
    (hfits : b % ss + bytes.length ≤ ss) :
    (s.put (b % ss) bytes).view = write s.view (ss * vol.fatbase + b) bytes := by
  rw [put_view hfits, h.place]

/-! Reading an entry. -/

theorem byte_lt (hlt : clst < vol.nFatent) {b k : Nat}
    (hb : vol.entryAddr clst = ss * vol.fatbase + b)
    (hk : k < 2 ∨ vol.fsType = .fat32 ∧ k < 4) : b + k < ss * vol.fsize := by
  have hinside := (entry_inside hlt hk).2
  rw [hb, Nat.mul_add] at hinside
  omega

/-- A byte of the entry, read through the window. -/
theorem Kept.win_entry (hkept : Kept vol.toGeometry s s') {b j k : Nat} (hat : AtByte vol s' b)
    (hplace : vol.entryAddr clst + k = ss * vol.fatbase + b + j) (hj : b % ss + j < ss)
    (hlt : clst < vol.nFatent) (hk : k < 2 ∨ vol.fsType = .fat32 ∧ k < 4) :
    s'.win (b % ss + j) = s.view (vol.entryAddr clst + k) := by
  rw [hat.win hj, ← hplace]
  exact hkept.view _ (fatArea_counts (entry_inside hlt hk))

theorem getFat_spec (hc : Coherent s) (hclst : 2 ≤ clst) (hlt : clst < vol.nFatent) {v : Nat}
    (hcall : getFat faults vol.toGeometry s clst = (s', v)) :
    Kept vol.toGeometry s s' ∧ (v = fatEntry vol.toGeometry s.view clst ∨
      v = diskError ∧ Faulty faults) := by
  have hfirst : (0 : Nat) < 2 ∨ vol.fsType = .fat32 ∧ 0 < 4 := .inl (by omega)
  have hsecond : (1 : Nat) < 2 ∨ vol.fsType = .fat32 ∧ 1 < 4 := .inl (by omega)
  unfold getFat at hcall
  rw [if_neg (by omega)] at hcall
  unfold fatEntry
  split at hcall
  next htype =>
    have haddr : vol.entryAddr clst = ss * vol.fatbase + (clst + clst / 2) := by
      unfold Geometry.entryAddr
      rw [htype]
    obtain ⟨s₁, r₁, hmove⟩ : ∃ s₁ r₁, moveWindow faults vol.toGeometry s
      (word (vol.fatbase + (clst + clst / 2) / ss)) = (s₁, r₁) := ⟨_, _, rfl⟩
    obtain ⟨s₂, r₂, hmove'⟩ : ∃ s₂ r₂, moveWindow faults vol.toGeometry s₁
      (word (vol.fatbase + (clst + clst / 2 + 1) / ss)) = (s₂, r₂) := ⟨_, _, rfl⟩
    simp only [hmove, hmove'] at hcall
    obtain ⟨hkept₁, ⟨rfl, hat₁⟩ | ⟨rfl, hfaulty⟩⟩ :=
      moveFat_spec hc (byte_lt hlt haddr hfirst) hmove
    · obtain ⟨hkept₂, ⟨rfl, hat₂⟩ | ⟨rfl, hfaulty⟩⟩ :=
        moveFat_spec hkept₁.coherent (byte_lt hlt haddr hsecond) hmove'
      · cases hcall
        refine ⟨hkept₁.trans hkept₂, .inl ?_⟩
        have hlow := hkept₁.win_entry hat₁ (j := 0) (by omega) (Nat.mod_lt _ (by decide)) hlt hfirst
        have hhigh := (hkept₁.trans hkept₂).win_entry hat₂ (j := 0) (by omega)
          (Nat.mod_lt _ (by decide)) hlt hsecond
        simp only [Nat.add_zero] at hlow hhigh
        dsimp only
        rw [hlow, hhigh, or_shift8]
        simp only [and_odd, Nat.shiftRight_eq_div_pow]
        rw [show (0xfff : Nat) = 2 ^ 12 - 1 from rfl, Nat.and_two_pow_sub_one_eq_mod]
      · cases hcall
        exact ⟨hkept₁.trans hkept₂, .inr ⟨rfl, hfaulty⟩⟩
    · cases hcall
      exact ⟨hkept₁, .inr ⟨rfl, hfaulty⟩⟩
  next htype =>
    have haddr : vol.entryAddr clst = ss * vol.fatbase + 2 * clst := by
      unfold Geometry.entryAddr
      rw [htype]
    have hsector : clst / (ss / 2) = 2 * clst / ss := by unfold ss; omega
    have hoffset : clst * 2 % ss = 2 * clst % ss := by rw [Nat.mul_comm]
    have hroom : 2 * clst % ss + 1 < ss := by unfold ss; omega
    obtain ⟨s₁, r₁, hmove⟩ : ∃ s₁ r₁, moveWindow faults vol.toGeometry s
      (word (vol.fatbase + 2 * clst / ss)) = (s₁, r₁) := ⟨_, _, rfl⟩
    simp only [hsector, hoffset, hmove] at hcall
    obtain ⟨hkept, ⟨rfl, hat⟩ | ⟨rfl, hfaulty⟩⟩ := moveFat_spec hc (byte_lt hlt haddr hfirst) hmove
    · cases hcall
      refine ⟨hkept, .inl ?_⟩
      have hlow := hkept.win_entry hat (j := 0) (by omega) (Nat.mod_lt _ (by decide)) hlt hfirst
      have hhigh := hkept.win_entry hat (j := 1) (by omega) hroom hlt hsecond
      simp only [Nat.add_zero] at hlow hhigh
      dsimp only
      rw [hlow, hhigh, or_shift8]
    · cases hcall
      exact ⟨hkept, .inr ⟨rfl, hfaulty⟩⟩
  next htype =>
    have haddr : vol.entryAddr clst = ss * vol.fatbase + 4 * clst := by
      unfold Geometry.entryAddr
      rw [htype]
    have hsector : clst / (ss / 4) = 4 * clst / ss := by unfold ss; omega
    have hoffset : clst * 4 % ss = 4 * clst % ss := by rw [Nat.mul_comm]
    have hroom : 4 * clst % ss + 3 < ss := by unfold ss; omega
    obtain ⟨s₁, r₁, hmove⟩ : ∃ s₁ r₁, moveWindow faults vol.toGeometry s
      (word (vol.fatbase + 4 * clst / ss)) = (s₁, r₁) := ⟨_, _, rfl⟩
    simp only [hsector, hoffset, hmove] at hcall
    obtain ⟨hkept, ⟨rfl, hat⟩ | ⟨rfl, hfaulty⟩⟩ := moveFat_spec hc (byte_lt hlt haddr hfirst) hmove
    · cases hcall
      refine ⟨hkept, .inl ?_⟩
      have hload : load32 s'.win (4 * clst % ss) = load32 s.view (vol.entryAddr clst) := by
        rw [load32_eq_iff]
        intro i hi
        exact hkept.win_entry hat (by omega) (by omega) hlt (.inr ⟨htype, hi⟩)
      dsimp only
      rw [hload]
      exact Nat.and_two_pow_sub_one_eq_mod _ 28
    · cases hcall
      exact ⟨hkept, .inr ⟨rfl, hfaulty⟩⟩

/-- Whatever number it is asked for. -/
theorem getFat_kept (faults : Faults) (vol : Volume) (hc : Coherent s) (clst : Nat) :
    Kept vol.toGeometry s (getFat faults vol.toGeometry s clst).1 := by
  by_cases hrange : 2 ≤ clst ∧ clst < vol.nFatent
  · exact (getFat_spec hc hrange.1 hrange.2 rfl).1
  · unfold getFat
    rw [if_pos (by omega)]
    exact .refl hc

/-! Writing an entry. -/

/-- Bytes of the FAT that are changed through the window. -/
theorem Changed.put {b : Nat} {bytes : List Byte} (hat : AtByte vol s b)
    (hfits : b % ss + bytes.length ≤ ss) (hinside : b + bytes.length ≤ ss * vol.fsize)
    (hothers : ∀ c < vol.nFatent, c ≠ clst →
      fatEntry vol.toGeometry (write s.view (ss * vol.fatbase + b) bytes) c =
        fatEntry vol.toGeometry s.view c) :
    Changed vol.toGeometry clst s (s.put (b % ss) bytes) where
  coherent := put_coherent hat.valid _ _
  others c hlt hne := by
    rw [hat.put hfits]
    exact hothers c hlt hne
  outside x _ hfat := by
    rw [hat.put hfits]
    apply write_outside
    unfold Geometry.FatArea at hfat
    rw [Nat.mul_add] at hfat
    omega
  lastClust := rfl
  freeClust := rfl
  fsiFlag := rfl

section Fat12

variable (htype : vol.fsType = .fat12)
include htype

theorem entryAddr12 : vol.entryAddr clst = ss * vol.fatbase + (clst + clst / 2) := by
  unfold Geometry.entryAddr
  rw [htype]

theorem fatEntry12 : fatEntry vol.toGeometry mem clst =
    if clst % 2 = 1 then (mem (vol.entryAddr clst)).toNat / 16 +
      16 * (mem (vol.entryAddr clst + 1)).toNat
    else (mem (vol.entryAddr clst)).toNat + 256 * ((mem (vol.entryAddr clst + 1)).toNat % 16) := by
  have h₀ := (mem (vol.entryAddr clst)).isLt
  unfold fatEntry
  rw [htype]
  dsimp only
  split <;> omega

/-- The first byte of an odd entry is shared with the entry before it. -/
theorem others_first {b : Byte} (hb : clst % 2 = 1 →
    b.toNat % 16 = (mem (vol.entryAddr clst)).toNat % 16) (hne : c ≠ clst) :
    fatEntry vol.toGeometry (write mem (vol.entryAddr clst) [b]) c =
      fatEntry vol.toGeometry mem c := by
  have haddr : vol.entryAddr clst = _ := entryAddr12 htype
  have haddr' : vol.entryAddr c = _ := entryAddr12 htype
  rw [fatEntry12 htype, fatEntry12 htype]
  simp only [write_singleton]
  rw [if_neg (by omega : ¬ vol.entryAddr c = vol.entryAddr clst)]
  by_cases hshared : vol.entryAddr c + 1 = vol.entryAddr clst
  · rw [if_pos hshared, if_neg (by omega), if_neg (by omega), hb (by omega), hshared]
  · rw [if_neg hshared]

/-- The second byte of an even entry is shared with the entry behind it. -/
theorem others_second {b : Byte} (hb : clst % 2 = 0 →
    b.toNat / 16 = (mem (vol.entryAddr clst + 1)).toNat / 16) (hne : c ≠ clst) :
    fatEntry vol.toGeometry (write mem (vol.entryAddr clst + 1) [b]) c =
      fatEntry vol.toGeometry mem c := by
  have haddr : vol.entryAddr clst = _ := entryAddr12 htype
  have haddr' : vol.entryAddr c = _ := entryAddr12 htype
  rw [fatEntry12 htype, fatEntry12 htype]
  simp only [write_singleton]
  rw [if_neg (by omega : ¬ vol.entryAddr c + 1 = vol.entryAddr clst + 1)]
  by_cases hshared : vol.entryAddr c = vol.entryAddr clst + 1
  · rw [if_pos hshared, if_pos (by omega), if_pos (by omega), hb (by omega), hshared]
  · rw [if_neg hshared]

end Fat12

/-- The two bytes of the new entry hold its value. -/
theorem fatEntry_joined (htype : vol.fsType = .fat12) {p q : Byte}
    (hfirst : mem (vol.entryAddr clst) = if clst % 2 = 1 then
      (p &&& 0x0f#8) ||| (BitVec.ofNat 8 val <<< 4) else BitVec.ofNat 8 val)
    (hsecond : mem (vol.entryAddr clst + 1) = if clst % 2 = 1 then BitVec.ofNat 8 (val >>> 4)
      else (q &&& 0xf0#8) ||| (BitVec.ofNat 8 (val >>> 8) &&& 0x0f#8)) :
    fatEntry vol.toGeometry mem clst = val % 4096 := by
  rw [fatEntry12 htype, hfirst, hsecond]
  split
  · rw [joined_odd, BitVec.toNat_ofNat, BitVec.toNat_ofNat, Nat.shiftRight_eq_div_pow]
    omega
  · rw [joined_even, BitVec.toNat_ofNat, BitVec.toNat_ofNat, Nat.shiftRight_eq_div_pow]
    omega

/-- Inside of one sector the window stays where it is. -/
theorem moveFat_next {b : Nat} (hat : AtByte vol s b) (hsame : b % ss ≠ ss - 1) :
    moveWindow faults vol.toGeometry s (word (vol.fatbase + (b + 1) / ss)) = (s, .ok) := by
  have hplace := hat.place
  have hvalid := hat.valid
  have hhere : word (vol.fatbase + (b + 1) / ss) = s.winsect := by
    unfold word noSector ss at *
    omega
  unfold moveWindow
  rw [hhere, if_pos rfl]

/-- What `put_fat` does to its entry: it holds the new value; or a request has failed, and
then the entry is as before unless it lies in two sectors. -/
def PutResult (faults : Faults) (vol : Volume) (clst val : Nat) (s s' : FatFs) (r : FResult) :
    Prop :=
  r = .ok ∧ fatEntry vol.toGeometry s'.view clst = val % (lastLink vol.fsType + 1) ∨
    r = .diskErr ∧ Faulty faults ∧ (vol.Straddles clst ∨
      fatEntry vol.toGeometry s'.view clst = fatEntry vol.toGeometry s.view clst)

theorem putFat12_spec (htype : vol.fsType = .fat12) (hc : Coherent s) (hclst : 2 ≤ clst)
    (hlt : clst < vol.nFatent) {r : FResult}
    (hcall : putFat faults vol.toGeometry s clst val = (s', r)) :
    Changed vol.toGeometry clst s s' ∧ PutResult faults vol clst val s s' r := by
  have haddr : vol.entryAddr clst = _ := entryAddr12 htype
  have hfirst : clst + clst / 2 < ss * vol.fsize := byte_lt hlt haddr (k := 0) (.inl (by omega))
  have hsecond := byte_lt hlt haddr (k := 1) (.inl (by omega))
  have hstart : vol.Counts (vol.entryAddr clst) :=
    fatArea_counts (entry_inside hlt (k := 0) (.inl (by omega)))
  have hmod : ∀ b, b % ss < ss := fun b => Nat.mod_lt _ (by decide)
  unfold putFat at hcall
  rw [if_neg (by omega), htype] at hcall
  obtain ⟨s₁, r₁, hmove⟩ : ∃ s₁ r₁, moveWindow faults vol.toGeometry s
    (word (vol.fatbase + (clst + clst / 2) / ss)) = (s₁, r₁) := ⟨_, _, rfl⟩
  simp only [hmove, and_odd] at hcall
  obtain ⟨hkept₁, ⟨rfl, hat₁⟩ | ⟨rfl, hfaulty⟩⟩ := moveFat_spec hc hfirst hmove
  · rw [if_neg (by simp)] at hcall
    generalize hb₁ : (if clst % 2 = 1 then (s₁.win ((clst + clst / 2) % ss) &&& 0x0f#8) |||
      (BitVec.ofNat 8 val <<< 4) else BitVec.ofNat 8 val) = b₁ at hcall
    have hp := hat₁.win (k := 0) (hmod _)
    simp only [Nat.add_zero, ← haddr] at hp
    have hput₁ : Changed vol.toGeometry clst s₁ (s₁.put ((clst + clst / 2) % ss) [b₁]) := by
      apply Changed.put hat₁ (hmod _) (by simpa using hfirst)
      intro c _ hne
      rw [← haddr]
      apply others_first htype _ hne
      intro hodd
      rw [← hb₁, if_pos hodd, joined_odd, hp]
      omega
    have hview₁ : (s₁.put ((clst + clst / 2) % ss) [b₁]).view =
        write s₁.view (vol.entryAddr clst) [b₁] := by
      rw [haddr]
      exact hat₁.put (hmod _)
    have hat₁' : AtByte vol (s₁.put ((clst + clst / 2) % ss) [b₁]) (clst + clst / 2) :=
      ⟨hat₁.valid, hat₁.place⟩
    generalize s₁.put ((clst + clst / 2) % ss) [b₁] = s₂ at hcall hput₁ hview₁ hat₁'
    obtain ⟨s₃, r₃, hmove'⟩ : ∃ s₃ r₃, moveWindow faults vol.toGeometry s₂
      (word (vol.fatbase + (clst + clst / 2 + 1) / ss)) = (s₃, r₃) := ⟨_, _, rfl⟩
    simp only [hmove'] at hcall
    have hchanged := (hkept₁.changed clst).trans hput₁
    obtain ⟨hkept₃, ⟨rfl, hat₃⟩ | ⟨rfl, hfaulty⟩⟩ := moveFat_spec hput₁.coherent hsecond hmove'
    · rw [if_neg (by simp)] at hcall
      generalize hb₂ : (if clst % 2 = 1 then BitVec.ofNat 8 (val >>> 4)
        else (s₃.win ((clst + clst / 2 + 1) % ss) &&& 0xf0#8) |||
          (BitVec.ofNat 8 (val >>> 8) &&& 0x0f#8)) = b₂ at hcall
      cases hcall
      have hq := hat₃.win (k := 0) (hmod _)
      simp only [Nat.add_zero, ← Nat.add_assoc] at hq
      rw [Nat.add_assoc (ss * vol.fatbase), ← haddr] at hq
      have hput₃ : Changed vol.toGeometry clst s₃
          (s₃.put ((clst + clst / 2 + 1) % ss) [b₂]) := by
        apply Changed.put hat₃ (hmod _) (by simp; omega)
        intro c _ hne
        rw [← Nat.add_assoc, ← haddr]
        apply others_second htype _ hne
        intro heven
        rw [← hb₂, if_neg (by omega), joined_even, hq]
        omega
      refine ⟨hchanged.trans ((hkept₃.changed clst).trans hput₃), .inl ⟨rfl, ?_⟩⟩
      rw [htype]
      apply fatEntry_joined htype
      · rw [hat₃.put (hmod _), ← Nat.add_assoc, ← haddr, write_singleton, if_neg (by omega),
          hkept₃.view _ hstart, hview₁, write_singleton, if_pos rfl, ← hb₁]
      · rw [hat₃.put (hmod _), ← Nat.add_assoc, ← haddr, write_singleton, if_pos rfl, ← hb₂]
    · cases hcall
      refine ⟨hchanged.trans (hkept₃.changed clst), .inr ⟨rfl, hfaulty, .inl ⟨htype, ?_⟩⟩⟩
      by_contra hsame
      cases (moveFat_next hat₁' hsame).symm.trans hmove'
  · cases hcall
    exact ⟨hkept₁.changed clst, .inr ⟨rfl, hfaulty, .inr (hkept₁.entry hlt)⟩⟩

/-- The entries of FAT16 and FAT32 lie in one sector and share no bytes. -/
theorem putWhole_spec (hc : Coherent s) (hlt : clst < vol.nFatent) {b : Nat}
    (haddr : vol.entryAddr clst = ss * vol.fatbase + b) (bytes : FatFs → List Byte) {n : Nat}
    (hlength : ∀ s, (bytes s).length = n) (hroom : b % ss + n ≤ ss)
    (hn : ∀ k < n, k < 2 ∨ vol.fsType = .fat32 ∧ k < 4) (hpos : 0 < n)
    (hapart : ∀ c, c ≠ clst → ∀ k, (k < 2 ∨ vol.fsType = .fat32 ∧ k < 4) →
      vol.entryAddr c + k < vol.entryAddr clst ∨ vol.entryAddr clst + n ≤ vol.entryAddr c + k)
    (hvalue : ∀ s₁, Kept vol.toGeometry s s₁ → AtByte vol s₁ b → fatEntry vol.toGeometry
      (write s₁.view (vol.entryAddr clst) (bytes s₁)) clst = val % (lastLink vol.fsType + 1))
    {s₁ : FatFs} {r₁ r : FResult}
    (hmove : moveWindow faults vol.toGeometry s (word (vol.fatbase + b / ss)) = (s₁, r₁))
    (hcall : (if r₁ ≠ .ok then (s₁, r₁) else (s₁.put (b % ss) (bytes s₁), .ok)) = (s', r)) :
    Changed vol.toGeometry clst s s' ∧ PutResult faults vol clst val s s' r := by
  have hinside : b + (n - 1) < ss * vol.fsize := byte_lt hlt haddr (hn (n - 1) (by omega))
  obtain ⟨hkept, ⟨rfl, hat⟩ | ⟨rfl, hfaulty⟩⟩ := moveFat_spec hc (by omega) hmove
  · rw [if_neg (by simp)] at hcall
    cases hcall
    have hfits : b % ss + (bytes s₁).length ≤ ss := by rwa [hlength]
    have hput : Changed vol.toGeometry clst s₁ (s₁.put (b % ss) (bytes s₁)) := by
      apply Changed.put hat hfits (by rw [hlength]; omega)
      intro c _ hne
      apply fatEntry_bytes
      intro k hk
      rw [← haddr]
      exact write_outside (by rw [hlength]; exact hapart c hne k hk)
    refine ⟨(hkept.changed clst).trans hput, .inl ⟨rfl, ?_⟩⟩
    rw [hat.put hfits, ← haddr]
    exact hvalue s₁ hkept hat
  · cases hcall
    exact ⟨hkept.changed clst, .inr ⟨rfl, hfaulty, .inr (hkept.entry hlt)⟩⟩

theorem fatEntry_write16 (htype : vol.fsType = .fat16) : fatEntry vol.toGeometry
    (write mem (vol.entryAddr clst) [BitVec.ofNat 8 val, BitVec.ofNat 8 (val >>> 8)]) clst =
      val % 65536 := by
  have hbyte : ∀ i (hi : i < 2), write mem (vol.entryAddr clst)
      [BitVec.ofNat 8 val, BitVec.ofNat 8 (val >>> 8)] (vol.entryAddr clst + i) =
        [BitVec.ofNat 8 val, BitVec.ofNat 8 (val >>> 8)][i] := fun i hi => write_inside hi
  have h₀ := hbyte 0 (by decide)
  have h₁ := hbyte 1 (by decide)
  unfold fatEntry
  rw [htype]
  dsimp only
  rw [Nat.add_zero] at h₀
  rw [h₀, h₁]
  simp only [List.getElem_cons_zero, List.getElem_cons_succ, BitVec.toNat_ofNat,
    Nat.shiftRight_eq_div_pow]
  omega

/-- The upper four bits are kept and do not count. -/
theorem fatEntry_write32 (htype : vol.fsType = .fat32) (hval : val < 2 ^ 32) (old : Nat) :
    fatEntry vol.toGeometry (write mem (vol.entryAddr clst)
      (wordBytes (val ||| (old &&& 0xf0000000)))) clst = val % 2 ^ 28 := by
  have hkeep : old &&& 0xf0000000 < 2 ^ 32 := Nat.and_lt_two_pow _ (by decide)
  have hzero : (old &&& 0xf0000000) % 2 ^ 28 = 0 := by
    rw [Nat.and_mod_two_pow]
    simp
  have hload : load32 (store32 mem (vol.entryAddr clst) (val ||| (old &&& 0xf0000000)))
      (vol.entryAddr clst) = val ||| (old &&& 0xf0000000) :=
    load32_store32 (Nat.or_lt_two_pow hval hkeep)
  unfold store32 at hload
  unfold fatEntry
  rw [htype]
  dsimp only
  rw [hload, Nat.or_mod_two_pow, hzero, Nat.or_zero]

/-- `put_fat` sets its entry, or a request has failed; it changes no other entry and nothing
outside of the FAT. -/
theorem putFat_spec (hc : Coherent s) (hclst : 2 ≤ clst) (hlt : clst < vol.nFatent)
    (hval : val < 2 ^ 32) {r : FResult}
    (hcall : putFat faults vol.toGeometry s clst val = (s', r)) :
    Changed vol.toGeometry clst s s' ∧ PutResult faults vol clst val s s' r := by
  cases htype : vol.fsType with
  | fat12 => exact putFat12_spec htype hc hclst hlt hcall
  | fat16 =>
    have haddr : ∀ c, vol.entryAddr c = ss * vol.fatbase + 2 * c := by
      intro c
      unfold Geometry.entryAddr
      rw [htype]
    have hsector : clst / (ss / 2) = 2 * clst / ss := by unfold ss; omega
    have hoffset : clst * 2 % ss = 2 * clst % ss := by rw [Nat.mul_comm]
    unfold putFat at hcall
    rw [if_neg (by omega), htype] at hcall
    obtain ⟨s₁, r₁, hmove⟩ : ∃ s₁ r₁, moveWindow faults vol.toGeometry s
      (word (vol.fatbase + 2 * clst / ss)) = (s₁, r₁) := ⟨_, _, rfl⟩
    simp only [hsector, hoffset, hmove] at hcall
    apply putWhole_spec (n := 2) hc hlt (haddr clst)
      (fun _ => [BitVec.ofNat 8 val, BitVec.ofNat 8 (val >>> 8)])
      (fun _ => rfl) _ (fun k hk => .inl hk)
      (by omega) _ _ hmove hcall
    · unfold ss
      simp
      omega
    · intro c hne k hk
      rw [haddr, haddr]
      simp [htype] at hk ⊢
      omega
    · intro s₁ _ _
      rw [htype]
      exact fatEntry_write16 htype
  | fat32 =>
    have haddr : ∀ c, vol.entryAddr c = ss * vol.fatbase + 4 * c := by
      intro c
      unfold Geometry.entryAddr
      rw [htype]
    have hsector : clst / (ss / 4) = 4 * clst / ss := by unfold ss; omega
    have hoffset : clst * 4 % ss = 4 * clst % ss := by rw [Nat.mul_comm]
    unfold putFat at hcall
    rw [if_neg (by omega), htype] at hcall
    obtain ⟨s₁, r₁, hmove⟩ : ∃ s₁ r₁, moveWindow faults vol.toGeometry s
      (word (vol.fatbase + 4 * clst / ss)) = (s₁, r₁) := ⟨_, _, rfl⟩
    simp only [hsector, hoffset, hmove] at hcall
    apply putWhole_spec (n := 4) hc hlt (haddr clst)
      (fun s₁ => wordBytes (val ||| (load32 s₁.win (4 * clst % ss) &&& 0xf0000000)))
      (fun _ => rfl) _
      (fun k hk => .inr ⟨htype, hk⟩) (by omega) _ _ hmove hcall
    · unfold ss
      simp
      omega
    · intro c hne k hk
      rw [haddr, haddr]
      simp [htype] at hk ⊢
      omega
    · intro s₁ _ _
      rw [htype]
      exact fatEntry_write32 htype hval _

/-! Runs of accesses to the FAT and to other sectors, all through the one window. -/

inductive FatAct where
  | put (clst val : Nat)
  | get (clst : Nat)
  | other (sector offset : Nat) (bytes : List Byte)

/-- The file system with the entries that are known. -/
structure FatHistory where
  fs : FatFs
  known : Nat → Option Nat

/-- The entries that are known behind `put_fat`. The failed change of an entry that lies in two
sectors leaves it open. -/
def noted (vol : Volume) (known : Nat → Option Nat) (clst val : Nat) (res : FResult) :
    Nat → Option Nat :=
  if res = .ok then Function.update known clst (some (val % (lastLink vol.fsType + 1)))
  else if vol.fsType = .fat12 ∧ (clst + clst / 2) % ss = ss - 1 then
    Function.update known clst none
  else known

def fatStep (faults : Faults) (vol : Volume) (h : FatHistory) : FatAct → Option FatHistory
  | .put clst val =>
      if 2 ≤ clst ∧ clst < vol.nFatent ∧ val < 2 ^ 32 then
        let (fs, res) := putFat faults vol.toGeometry h.fs clst val
        some ⟨fs, noted vol h.known clst val res⟩
      else none
  | .get clst => some ⟨(getFat faults vol.toGeometry h.fs clst).1, h.known⟩
  | .other sector offset bytes =>
      if sector < noSector ∧ offset + bytes.length ≤ ss ∧
          (sector < vol.fatbase ∨ vol.fatbase + vol.fsize ≤ sector) then
        let (fs, res) := moveWindow faults vol.toGeometry h.fs sector
        some ⟨if res = .ok then fs.change offset bytes else fs, h.known⟩
      else none

/-- The known entries are those of the FAT, and all are known unless a request has failed. -/
structure Remembers (faults : Faults) (vol : Volume) (h : FatHistory) : Prop where
  coherent : Coherent h.fs
  entries : ∀ c v, 2 ≤ c → c < vol.nFatent → h.known c = some v →
    fatEntry vol.toGeometry h.fs.view c = v
  all : ∀ c, h.known c = none → Faulty faults

variable {h h' : FatHistory} {act : FatAct}

theorem Remembers.kept {fs : FatFs} (hm : Remembers faults vol h)
    (hkept : Kept vol.toGeometry h.fs fs) : Remembers faults vol ⟨fs, h.known⟩ where
  coherent := hkept.coherent
  entries c v hc hlt hv := by rw [hkept.entry hlt, hm.entries c v hc hlt hv]
  all := hm.all

theorem noted_of_ne {known : Nat → Option Nat} {r : FResult} (hne : c ≠ clst) :
    noted vol known clst val r c = known c := by
  unfold noted
  split
  · exact Function.update_of_ne hne _ _
  · split
    · exact Function.update_of_ne hne _ _
    · rfl

theorem Remembers.put (hm : Remembers faults vol h) (hclst : 2 ≤ clst) (hlt : clst < vol.nFatent)
    (hval : val < 2 ^ 32) {fs : FatFs} {r : FResult}
    (hput : putFat faults vol.toGeometry h.fs clst val = (fs, r)) :
    Remembers faults vol ⟨fs, noted vol h.known clst val r⟩ := by
  obtain ⟨hchanged, hr⟩ := putFat_spec hm.coherent hclst hlt hval hput
  refine ⟨hchanged.coherent, ?_, ?_⟩
  · intro c v hc2 hclt
    by_cases heq : c = clst
    · subst heq
      unfold noted
      rcases hr with ⟨rfl, hnew⟩ | ⟨rfl, -, hold⟩
      · simp [hnew]
      · rw [if_neg (by decide)]
        dsimp only
        split
        next => simp
        next hwhole =>
          rw [hold.resolve_left hwhole]
          exact hm.entries c v hc2 hclt
    · dsimp only
      rw [noted_of_ne heq, hchanged.others c hclt heq]
      exact hm.entries c v hc2 hclt
  · intro c hnone
    by_cases heq : c = clst
    · subst heq
      rcases hr with ⟨rfl, -⟩ | ⟨-, hfaulty, -⟩
      · simp [noted] at hnone
      · exact hfaulty
    · dsimp only at hnone
      rw [noted_of_ne heq] at hnone
      exact hm.all c hnone

theorem Remembers.other {sector offset : Nat} {bytes : List Byte} (hm : Remembers faults vol h)
    (hsector : sector < noSector) (hfits : offset + bytes.length ≤ ss)
    (hfat : sector < vol.fatbase ∨ vol.fatbase + vol.fsize ≤ sector) {fs : FatFs} {r : FResult}
    (hmove : moveWindow faults vol.toGeometry h.fs sector = (fs, r)) :
    Remembers faults vol ⟨if r = .ok then fs.change offset bytes else fs, h.known⟩ := by
  obtain ⟨hkept, ⟨rfl, rfl⟩ | ⟨rfl, -⟩⟩ := moveWindow_spec hm.coherent hmove
  · refine ⟨hkept.coherent.change hsector _ _, ?_, hm.all⟩
    intro c v hc2 hlt hv
    rw [← (hm.kept hkept).entries c v hc2 hlt hv]
    apply fatEntry_congr hlt
    intro x hx
    dsimp only
    rw [if_pos rfl, change_view hfits]
    apply write_outside
    unfold Geometry.FatArea ss at *
    omega
  · exact hm.kept hkept

theorem Remembers.step (hm : Remembers faults vol h) (hstep : fatStep faults vol h act = some h') :
    Remembers faults vol h' := by
  cases act with
  | put clst val =>
    unfold fatStep at hstep
    dsimp only at hstep
    split at hstep
    next hbounds =>
      obtain rfl := Option.some.inj hstep
      exact hm.put hbounds.1 hbounds.2.1 hbounds.2.2 rfl
    next => cases hstep
  | get clst =>
    obtain rfl := Option.some.inj hstep
    exact hm.kept (getFat_kept faults vol hm.coherent clst)
  | other sector offset bytes =>
    unfold fatStep at hstep
    dsimp only at hstep
    split at hstep
    next hbounds =>
      obtain rfl := Option.some.inj hstep
      exact hm.other hbounds.1 hbounds.2.1 hbounds.2.2 rfl
    next => cases hstep

/-- The FAT is a map: among any other accesses and whatever requests fail, `get_fat` gives
the value that was put last, in the width of the entries. -/
theorem fat_remembers {start : FatFs} (hstart : Coherent start)
    (hrun : Reaches (fatStep faults vol) anyStep
      ⟨start, fun c => some (fatEntry vol.toGeometry start.view c)⟩ h) :
    (∀ c v, 2 ≤ c → c < vol.nFatent → h.known c = some v →
      (getFat faults vol.toGeometry h.fs c).2 = v ∨
        (getFat faults vol.toGeometry h.fs c).2 = diskError ∧ Faulty faults) ∧
    (¬ Faulty faults → ∀ c, h.known c ≠ none) := by
  have hm : Remembers faults vol h := by
    refine hrun.invariant (Remembers faults vol) ⟨hstart, ?_, ?_⟩
      fun _ _ _ hm _ hstep => hm.step hstep
    · intro c v _ _ hv
      exact Option.some.inj hv
    · intro c hnone
      cases hnone
  constructor
  · intro c v hc2 hlt hv
    obtain ⟨-, hget⟩ := getFat_spec (v := (getFat faults vol.toGeometry h.fs c).2)
      hm.coherent hc2 hlt rfl
    rwa [hm.entries c v hc2 hlt hv] at hget
  · intro hfaults c hnone
    exact hfaults (hm.all c hnone)

/-- Two entries that share a byte. -/
def twoPuts : Option FatHistory :=
  runInputs (fatStep (fun _ => none) smallVolume) anyStep [.put 3 0x0fffffff, .put 2 0x123]
    ⟨blankFs, fun c => some (fatEntry smallVolume.toGeometry blankFs.view c)⟩

theorem fat_remembers_three : ∃ h, twoPuts = some h ∧ h.known 3 = some 0xfff ∧
    ((getFat (fun _ => none) smallVolume.toGeometry h.fs 3).2 = 0xfff ∨
      (getFat (fun _ => none) smallVolume.toGeometry h.fs 3).2 = diskError ∧
        Faulty fun _ => none) := by
  have hknown : twoPuts.map (·.known 3) = some (some 0xfff) := by decide +kernel
  obtain ⟨h, hrun, hthree⟩ := Option.map_eq_some_iff.mp hknown
  exact ⟨h, hrun, hthree, (fat_remembers blankFs_coherent (Reaches.of_runInputs hrun)).1 3 0xfff
    (by decide) (by decide) hthree⟩

end PosixRtos.Fs
