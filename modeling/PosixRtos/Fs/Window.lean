import PosixRtos.Library.Overlay
import PosixRtos.Library.Runs
import PosixRtos.Fs.Volume

/-! The disk access window of `ff.c`. The drive is the port of `diskio.c` that the volume
is bound to. Its requests are numbered and any of them may fail: `faults` gives for a
request that fails the bytes that it leaves behind, on the medium for a write and in
the buffer for a read. -/
namespace PosixRtos.Fs

open PosixRtos.Library.ByteMemory PosixRtos.Library.Overlay PosixRtos.Library.Runs
open PosixRtos.Heap (word sub32)

/-- The medium, byte by byte over its sectors, and the number of requests so far. -/
structure Drive where
  mem : Memory
  requests : Nat

abbrev Faults := Nat → Option Memory

/-- Some request fails. -/
def Faulty (faults : Faults) : Prop := ∃ n, faults n ≠ none

/-- `disk_read`: whether it succeeds and what is in the buffer afterwards. -/
def diskRead (faults : Faults) (d : Drive) (sector : Nat) : Drive × Bool × Memory :=
  let d' := { d with requests := d.requests + 1 }
  match faults d.requests with
  | none => (d', true, load d.mem (ss * sector))
  | some damage => (d', false, load damage (ss * sector))

/-- `disk_write` of `count` sectors. -/
def diskWrite (faults : Faults) (d : Drive) (buff : Memory) (sector count : Nat) : Drive × Bool :=
  match faults d.requests with
  | none => (⟨store d.mem (ss * sector) (ss * count) buff, d.requests + 1⟩, true)
  | some damage =>
      (⟨store d.mem (ss * sector) (ss * count) (load damage (ss * sector)), d.requests + 1⟩, false)

structure FatFs where
  drive : Drive
  winsect : Nat
  win : Memory
  wflag : Bool
  lastClust : Nat
  freeClust : Nat
  fsiFlag : BitVec 8

/-- The number that marks a window without a sector. -/
def noSector : Nat := 0xffffffff

variable (faults : Faults) (g : Geometry)

/-- Reflects the change to the other copies of the FAT, whose results are not looked at. -/
def mirrorWindow (win : Memory) : Nat → Drive → Nat → Drive
  | nf + 2, d, wsect =>
      let wsect := word (wsect + g.fsize)
      mirrorWindow win (nf + 1) (diskWrite faults d win wsect 1).1 wsect
  | _, d, _ => d

def syncWindow (s : FatFs) : FatFs × FResult :=
  if s.wflag then
    let wsect := s.winsect
    let (d, written) := diskWrite faults s.drive s.win wsect 1
    if !written then ({ s with drive := d }, .diskErr)
    else if sub32 wsect g.fatbase < g.fsize then
      ({ s with drive := mirrorWindow faults g s.win g.nFats d wsect, wflag := false }, .ok)
    else ({ s with drive := d, wflag := false }, .ok)
  else (s, .ok)

def moveWindow (s : FatFs) (sector : Nat) : FatFs × FResult :=
  if sector = s.winsect then (s, .ok)
  else
    let (s, res) := syncWindow faults g s
    if res = .ok then
      let (d, done, buff) := diskRead faults s.drive sector
      if done then ({ s with drive := d, win := buff, winsect := sector }, .ok)
      else ({ s with drive := d, win := buff, winsect := noSector }, .diskErr)
    else (s, res)

/-- The medium as the file system sees it, the window in the place of its sector. -/
def FatFs.view (s : FatFs) : Memory := overlay s.drive.mem (ss * s.winsect) ss s.win

/-- A window without changes shows what is on the medium. -/
structure Coherent (s : FatFs) : Prop where
  clean : s.wflag = false → s.winsect ≠ noSector →
    ∀ i < ss, s.win i = s.drive.mem (ss * s.winsect + i)
  valid : s.wflag = true → s.winsect < noSector

/-- The bytes of the copies of the FAT. -/
def Geometry.Mirror (x : Nat) : Prop :=
  ss * (g.fatbase + g.fsize) ≤ x ∧ x < ss * (g.fatbase + g.nFats * g.fsize)

/-- The addresses that count: those of the sectors that there are, less the copies. -/
def Geometry.Counts (x : Nat) : Prop := x < ss * noSector ∧ ¬ g.Mirror x

/-- What an access that changes nothing for the file system leaves alone. -/
structure Kept (s s' : FatFs) : Prop where
  coherent : Coherent s'
  view : ∀ x, g.Counts x → s'.view x = s.view x
  lastClust : s'.lastClust = s.lastClust
  freeClust : s'.freeClust = s.freeClust
  fsiFlag : s'.fsiFlag = s.fsiFlag

/-- Bytes that are written into the window. -/
def FatFs.put (s : FatFs) (offset : Nat) (bytes : List Byte) : FatFs :=
  { s with win := write s.win offset bytes, wflag := true }

/-- Only an access that changes bytes marks the window. -/
def FatFs.change (s : FatFs) (offset : Nat) (bytes : List Byte) : FatFs :=
  if bytes = [] then s else s.put offset bytes

variable {faults} {vol : Volume} {s s' : FatFs} {d : Drive} {win : Memory} {x sector count : Nat}

/-! One request to the drive. -/

theorem diskRead_mem (faults : Faults) (d : Drive) (sector : Nat) :
    (diskRead faults d sector).1.mem = d.mem := by
  unfold diskRead
  dsimp only
  split <;> rfl

theorem diskRead_done (hdone : (diskRead faults d sector).2.1 = true) :
    (diskRead faults d sector).2.2 = load d.mem (ss * sector) := by
  unfold diskRead at hdone ⊢
  dsimp only at hdone ⊢
  split at hdone
  next => rfl
  next => cases hdone

theorem diskWrite_outside (hx : x < ss * sector ∨ ss * sector + ss * count ≤ x) :
    (diskWrite faults d win sector count).1.mem x = d.mem x := by
  unfold diskWrite
  split <;> exact store_outside hx

theorem diskWrite_done (hdone : (diskWrite faults d win sector count).2 = true) :
    (diskWrite faults d win sector count).1.mem = store d.mem (ss * sector) (ss * count) win := by
  unfold diskWrite at hdone ⊢
  split at hdone
  next => rfl
  next => cases hdone

theorem diskRead_failed (hfailed : (diskRead faults d sector).2.1 ≠ true) : Faulty faults := by
  refine ⟨d.requests, fun hnone => hfailed ?_⟩
  simp [diskRead, hnone]

theorem diskWrite_failed (hfailed : (diskWrite faults d win sector count).2 ≠ true) :
    Faulty faults := by
  refine ⟨d.requests, fun hnone => hfailed ?_⟩
  simp [diskWrite, hnone]

/-- The copies are all that the loop writes to. -/
theorem mirrorWindow_outside {wsect : Nat} (hfat : vol.fatbase ≤ wsect)
    (hlt : wsect < vol.fatbase + vol.fsize) (hx : ¬ vol.Mirror x) :
    (mirrorWindow faults vol.toGeometry win vol.nFats d wsect).mem x = d.mem x := by
  unfold Geometry.Mirror at hx
  rcases vol.nFats_cases with hone | htwo
  · rw [hone]
    rfl
  · rw [htwo] at hx ⊢
    have hbelow := vol.fats_below
    have hdata := vol.data_fits
    have hword : word (wsect + vol.fsize) = wsect + vol.fsize := by
      rw [htwo] at hbelow
      exact Nat.mod_eq_of_lt (by omega)
    unfold mirrorWindow
    dsimp only
    rw [hword]
    unfold mirrorWindow
    apply diskWrite_outside
    unfold ss at hx ⊢
    omega

/-! The window. -/

theorem view_window {i : Nat} (hi : i < ss) : s.view (ss * s.winsect + i) = s.win i := by
  unfold FatFs.view
  rw [overlay_inside (by omega) (by omega), Nat.add_sub_cancel_left]

/-- Through a window without changes the medium is seen. -/
theorem Coherent.view_clean (hc : Coherent s) (hclean : s.wflag = false)
    (hx : x < ss * noSector) : s.view x = s.drive.mem x := by
  unfold FatFs.view
  by_cases hsector : s.winsect = noSector
  · rw [hsector]
    exact overlay_outside (.inl hx)
  · rw [overlay_same (hc.clean hclean hsector)]

theorem sub32_inside {a base size : Nat} (ha : a < 2 ^ 32) (hbase : base + size ≤ 2 ^ 32) :
    sub32 a base < size ↔ base ≤ a ∧ a < base + size := by
  unfold sub32 word
  omega

theorem Volume.fat_words (vol : Volume) : vol.fatbase + vol.fsize ≤ 2 ^ 32 := by
  have hbelow := vol.fats_below
  have hdata := vol.data_fits
  have hone := vol.one_fat
  omega

/-- A window that is on the medium, with other bytes outside of it. -/
theorem Coherent.written {d : Drive}
    (hmem : ∀ i < ss, d.mem (ss * s.winsect + i) = s.win i) :
    Coherent { s with drive := d, wflag := false } where
  clean _ _ i hi := (hmem i hi).symm
  valid hdirty := by cases hdirty

theorem syncWindow_spec (hc : Coherent s) {r : FResult}
    (hcall : syncWindow faults vol.toGeometry s = (s', r)) :
    Kept vol.toGeometry s s' ∧ s'.winsect = s.winsect ∧
      (r = .ok ∧ s'.wflag = false ∨ r = .diskErr ∧ Faulty faults) := by
  unfold syncWindow at hcall
  split at hcall
  next hdirty =>
    have hvalid := hc.valid hdirty
    dsimp only at hcall
    -- the window itself does not change, so only the bytes outside of it matter
    have hview : ∀ d : Drive, (∀ x, ¬ vol.Mirror x → (x < ss * s.winsect ∨
        ss * s.winsect + ss ≤ x) → d.mem x = s.drive.mem x) → ∀ x, vol.Counts x →
        overlay d.mem (ss * s.winsect) ss s.win x = s.view x := by
      intro d hd x hx
      unfold FatFs.view
      by_cases hin : ss * s.winsect ≤ x ∧ x < ss * s.winsect + ss
      · rw [overlay_inside hin.1 hin.2, overlay_inside hin.1 hin.2]
      · rw [overlay_outside (by omega), overlay_outside (by omega)]
        exact hd x hx.2 (by omega)
    have houtside : ∀ x, (x < ss * s.winsect ∨ ss * s.winsect + ss ≤ x) →
        (diskWrite faults s.drive s.win s.winsect 1).1.mem x = s.drive.mem x :=
      fun x hx => diskWrite_outside (by rwa [Nat.mul_one])
    split at hcall
    next hfailed =>
      cases hcall
      refine ⟨⟨⟨?_, fun _ => hvalid⟩, ?_, rfl, rfl, rfl⟩, rfl,
        .inr ⟨rfl, diskWrite_failed (by simpa using hfailed)⟩⟩
      · intro hclean
        cases hdirty.symm.trans hclean
      · exact hview _ fun x _ hx => houtside x hx
    next hwritten =>
      have hdone : (diskWrite faults s.drive s.win s.winsect 1).2 = true := by
        simpa using hwritten
      have hmem := diskWrite_done hdone
      have hwin : ∀ i < ss,
          (diskWrite faults s.drive s.win s.winsect 1).1.mem (ss * s.winsect + i) = s.win i := by
        intro i hi
        rw [hmem, store_eq_overlay, overlay_inside (by omega) (by omega),
          Nat.add_sub_cancel_left]
      split at hcall
      next hfat =>
        have hwords := vol.fat_words
        rw [sub32_inside (by unfold noSector at hvalid; omega) hwords] at hfat
        cases hcall
        have hsame : ∀ x, ¬ vol.Mirror x → (mirrorWindow faults vol.toGeometry s.win vol.nFats
            (diskWrite faults s.drive s.win s.winsect 1).1 s.winsect).mem x =
              (diskWrite faults s.drive s.win s.winsect 1).1.mem x :=
          fun x hx => mirrorWindow_outside hfat.1 hfat.2 hx
        refine ⟨⟨Coherent.written ?_, ?_, rfl, rfl, rfl⟩, rfl, .inl ⟨rfl, rfl⟩⟩
        · intro i hi
          rw [hsame _ (by unfold Geometry.Mirror ss at *; omega)]
          exact hwin i hi
        · exact hview _ fun x hmirror hx => (hsame x hmirror).trans (houtside x hx)
      next =>
        cases hcall
        refine ⟨⟨Coherent.written hwin, ?_, rfl, rfl, rfl⟩, rfl, .inl ⟨rfl, rfl⟩⟩
        exact hview _ fun x _ hx => houtside x hx
  next hclean =>
    cases hcall
    exact ⟨⟨hc, fun _ _ => rfl, rfl, rfl, rfl⟩, rfl, .inl ⟨rfl, by simpa using hclean⟩⟩

theorem Kept.refl (hc : Coherent s) : Kept vol.toGeometry s s :=
  ⟨hc, fun _ _ => rfl, rfl, rfl, rfl⟩

theorem Kept.trans {s'' : FatFs} (h : Kept vol.toGeometry s s')
    (h' : Kept vol.toGeometry s' s'') : Kept vol.toGeometry s s'' where
  coherent := h'.coherent
  view x hx := (h'.view x hx).trans (h.view x hx)
  lastClust := h'.lastClust.trans h.lastClust
  freeClust := h'.freeClust.trans h.freeClust
  fsiFlag := h'.fsiFlag.trans h.fsiFlag

/-- A window that was moved shows the sector, as it was seen before. -/
theorem moveWindow_spec (hc : Coherent s) {r : FResult}
    (hcall : moveWindow faults vol.toGeometry s sector = (s', r)) :
    Kept vol.toGeometry s s' ∧ (r = .ok ∧ s'.winsect = sector ∨ r = .diskErr ∧ Faulty faults) := by
  unfold moveWindow at hcall
  split at hcall
  next hthere =>
    cases hcall
    exact ⟨.refl hc, .inl ⟨rfl, hthere.symm⟩⟩
  next =>
    generalize hsync : syncWindow faults vol.toGeometry s = synced at hcall
    obtain ⟨s₁, r₁⟩ := synced
    obtain ⟨hkept, -, ⟨rfl, hclean⟩ | ⟨rfl, hfaulty⟩⟩ := syncWindow_spec hc hsync
    · dsimp only at hcall
      rw [if_pos rfl] at hcall
      -- the sector is read behind the changes that have just been written
      have hmem : ∀ x, vol.Counts x → s₁.drive.mem x = s.view x := by
        intro x hx
        rw [← hkept.coherent.view_clean hclean hx.1]
        exact hkept.view x hx
      split at hcall
      next hdone =>
        cases hcall
        refine ⟨⟨⟨?_, ?_⟩, ?_, hkept.lastClust, hkept.freeClust, hkept.fsiFlag⟩,
          .inl ⟨rfl, rfl⟩⟩
        · intro _ _ i _
          rw [diskRead_done hdone, diskRead_mem]
          rfl
        · intro hdirty
          exact absurd hdirty (by simp [hclean])
        · intro x hx
          unfold FatFs.view
          rw [diskRead_done hdone, diskRead_mem, overlay_load]
          exact hmem x hx
      next hfailed =>
        cases hcall
        refine ⟨⟨⟨?_, ?_⟩, ?_, hkept.lastClust, hkept.freeClust, hkept.fsiFlag⟩,
          .inr ⟨rfl, diskRead_failed hfailed⟩⟩
        · intro _ hvalid
          exact absurd rfl hvalid
        · intro hdirty
          exact absurd hdirty (by simp [hclean])
        · intro x hx
          unfold FatFs.view
          rw [overlay_outside (.inl hx.1), diskRead_mem]
          exact hmem x hx
    · cases hcall
      exact ⟨hkept, .inr ⟨rfl, hfaulty⟩⟩

theorem put_view {offset : Nat} {bytes : List Byte} (hfits : offset + bytes.length ≤ ss) :
    (s.put offset bytes).view = write s.view (ss * s.winsect + offset) bytes :=
  overlay_write hfits

theorem put_coherent (hvalid : s.winsect < noSector) (offset : Nat) (bytes : List Byte) :
    Coherent (s.put offset bytes) where
  clean hclean := by cases hclean
  valid _ := hvalid

theorem change_view {offset : Nat} {bytes : List Byte} (hfits : offset + bytes.length ≤ ss) :
    (s.change offset bytes).view = write s.view (ss * s.winsect + offset) bytes := by
  unfold FatFs.change
  split
  next hnone => rw [hnone, write_nil]
  next => exact put_view hfits

theorem Coherent.change (hc : Coherent s) (hvalid : s.winsect < noSector) (offset : Nat)
    (bytes : List Byte) : Coherent (s.change offset bytes) := by
  unfold FatFs.change
  split
  · exact hc
  · exact put_coherent hvalid _ _

/-! Runs of accesses. -/

inductive WindowAct where
  | access (sector offset : Nat) (bytes : List Byte)
  | sync

/-- The file system with the bytes that the accesses have made of the medium. -/
structure WindowHistory where
  fs : FatFs
  seen : Memory

/-- An access moves the window and, where this succeeds, changes bytes of the sector. -/
def windowStep (faults : Faults) (g : Geometry) (h : WindowHistory) :
    WindowAct → Option WindowHistory
  | .access sector offset bytes =>
      if sector < noSector ∧ offset + bytes.length ≤ ss then
        let (fs, res) := moveWindow faults g h.fs sector
        if res = .ok then
          some ⟨fs.change offset bytes, write h.seen (ss * sector + offset) bytes⟩
        else some ⟨fs, h.seen⟩
      else none
  | .sync => some ⟨(syncWindow faults g h.fs).1, h.seen⟩

/-- The window shows what the accesses have made of the medium. -/
structure Transparent (h : WindowHistory) : Prop where
  coherent : Coherent h.fs
  view : ∀ x, g.Counts x → h.fs.view x = h.seen x

variable {h h' : WindowHistory} {act : WindowAct}

theorem Transparent.kept {fs : FatFs} (ht : Transparent vol.toGeometry h)
    (hkept : Kept vol.toGeometry h.fs fs) : Transparent vol.toGeometry ⟨fs, h.seen⟩ where
  coherent := hkept.coherent
  view x hx := (hkept.view x hx).trans (ht.view x hx)

theorem Transparent.step (ht : Transparent vol.toGeometry h)
    (hstep : windowStep faults vol.toGeometry h act = some h') :
    Transparent vol.toGeometry h' := by
  cases act with
  | access sector offset bytes =>
    unfold windowStep at hstep
    dsimp only at hstep
    split at hstep
    next hbounds =>
      generalize hmove : moveWindow faults vol.toGeometry h.fs sector = moved at hstep
      obtain ⟨fs, r⟩ := moved
      obtain ⟨hkept, ⟨rfl, hsector⟩ | ⟨rfl, -⟩⟩ := moveWindow_spec ht.coherent hmove
      · cases hstep
        refine ⟨hkept.coherent.change (show fs.winsect < noSector by omega) _ _, ?_⟩
        intro x hx
        have hseen := (ht.kept hkept).view x hx
        rw [change_view hbounds.2, hsector]
        simp only [write, hseen]
      · cases hstep
        exact ht.kept hkept
    next => cases hstep
  | sync =>
    cases hstep
    exact ht.kept (syncWindow_spec ht.coherent rfl).1

/-- Whatever requests fail, the changes of the accesses that succeeded are seen, in
their order and nothing else: by the next access to any sector, and on the medium
once the window has been written back. The copies of the FAT are left out. -/
theorem window_transparent {start : FatFs} (hstart : Coherent start)
    (hrun : Reaches (windowStep faults vol.toGeometry) anyStep ⟨start, start.view⟩ h) :
    (∀ sector, (moveWindow faults vol.toGeometry h.fs sector).2 = .ok →
      ∀ i < ss, vol.Counts (ss * sector + i) →
        (moveWindow faults vol.toGeometry h.fs sector).1.win i = h.seen (ss * sector + i)) ∧
    ((syncWindow faults vol.toGeometry h.fs).2 = .ok →
      ∀ x, vol.Counts x → (syncWindow faults vol.toGeometry h.fs).1.drive.mem x = h.seen x) := by
  have ht : Transparent vol.toGeometry h :=
    hrun.invariant (Transparent vol.toGeometry) ⟨hstart, fun _ _ => rfl⟩
      fun _ _ _ ht _ hstep => ht.step hstep
  constructor
  · intro sector hok i hi hx
    generalize hmove : moveWindow faults vol.toGeometry h.fs sector = moved at hok ⊢
    obtain ⟨fs, r⟩ := moved
    obtain ⟨hkept, ⟨-, rfl⟩ | ⟨hfailed, -⟩⟩ := moveWindow_spec ht.coherent hmove
    · rw [← (ht.kept hkept).view _ hx]
      exact (view_window hi).symm
    · cases hok.symm.trans hfailed
  · intro hok x hx
    generalize hsync : syncWindow faults vol.toGeometry h.fs = synced at hok ⊢
    obtain ⟨fs, r⟩ := synced
    obtain ⟨hkept, -, ⟨-, hclean⟩ | ⟨hfailed, -⟩⟩ := syncWindow_spec ht.coherent hsync
    · rw [← (ht.kept hkept).view x hx, hkept.coherent.view_clean hclean hx.1]
    · cases hok.symm.trans hfailed

/-- A volume of three clusters. -/
def smallVolume : Volume where
  fsType := .fat12
  csize := 1
  nFats := 2
  nRootdir := 16
  nFatent := 5
  fsize := 1
  volbase := 0
  fatbase := 1
  dirbase := 3
  database := 4
  csize_pow := ⟨0, by decide, rfl⟩
  nFats_cases := .inr rfl
  clusters := by decide
  ends_known := by decide
  fat_fits := by decide
  reserved := Nat.zero_lt_one
  fats_below := by decide
  data_fits := by decide

/-- A medium of zeros behind a window without a sector. -/
def blankFs : FatFs := ⟨⟨fun _ => 0, 0⟩, noSector, fun _ => 0, false, 0, 3, 0⟩

theorem blankFs_coherent : Coherent blankFs where
  clean _ _ _ _ := rfl
  valid hdirty := by cases hdirty

/-- The second request fails and leaves a medium of sevens. -/
def secondFails : Faults := fun n => if n = 1 then some fun _ => 7 else none

/-- The first change is not lost with the access that fails. -/
theorem window_transparent_failing : ∃ h : WindowHistory, h.seen (ss * 4) = 1#8 ∧
    Reaches (windowStep secondFails smallVolume.toGeometry) anyStep ⟨blankFs, blankFs.view⟩ h ∧
    ((syncWindow secondFails smallVolume.toGeometry h.fs).2 = .ok →
      ∀ x, smallVolume.Counts x →
        (syncWindow secondFails smallVolume.toGeometry h.fs).1.drive.mem x = h.seen x) := by
  have hrun : Reaches (windowStep secondFails smallVolume.toGeometry) anyStep
      ⟨blankFs, blankFs.view⟩ _ :=
    .tail (.tail .refl trivial (show windowStep _ _ _ (.access 4 0 [1#8]) = some _ from rfl))
      trivial (show windowStep _ _ _ (.access 5 0 [2#8]) = some _ from rfl)
  exact ⟨_, by decide, hrun, (window_transparent blankFs_coherent hrun).2⟩

end PosixRtos.Fs
