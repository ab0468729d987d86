import PosixRtos.Fs.OpenFiles

/-! `find_volume` of `ff.c`: which boot sectors are accepted and what becomes of them. There is
one logical drive (`_VOLUMES`) and it has no partition number of its own (`LD2PT`). -/
namespace PosixRtos.Fs

open PosixRtos.Library.ByteMemory PosixRtos.Library.Overlay PosixRtos.Library.Runs
open PosixRtos.Heap (word sub32)

inductive BootSector where
  | fat
  | notFat
  | notBoot
  | diskErr
deriving DecidableEq, Repr

/-- The fields of the boot sector that are read. -/
structure Bpb where
  bytsPerSec : Nat
  fatSz : Nat
  numFats : Nat
  secPerClus : Nat
  rootEntCnt : Nat
  totSec : Nat
  rsvdSecCnt : Nat
  rootClus : Nat
  fsInfo : Nat
deriving DecidableEq, Repr

/-- The entries of a directory in a sector: `SS(fs) / SZ_DIRE`. -/
def sectorEntries : Nat := ss / 32

def minFat16 : Nat := 4086

def minFat32 : Nat := 65526

def readBpb (win : Memory) : Bpb where
  bytsPerSec := load16 win 11
  fatSz := if load16 win 22 ≠ 0 then load16 win 22 else load32 win 36
  numFats := (win 16).toNat
  secPerClus := (win 13).toNat
  rootEntCnt := load16 win 17
  totSec := if load16 win 19 ≠ 0 then load16 win 19 else load32 win 32
  rsvdSecCnt := load16 win 14
  rootClus := load32 win 44
  fsInfo := load16 win 48

/-- `szbfat` -/
def neededFat (nFatent : Nat) : FatType → Nat
  | .fat12 => word (nFatent * 3) / 2 + (nFatent &&& 1)
  | .fat16 => word (nFatent * 2)
  | .fat32 => word (nFatent * 4)

/-- What `find_volume` makes of the fields. -/
def Bpb.geometry (b : Bpb) (bsect : Nat) : Option Geometry :=
  if b.bytsPerSec ≠ ss then none
  else if b.numFats ≠ 1 ∧ b.numFats ≠ 2 then none
  else
    let fasize := word (b.fatSz * b.numFats)
    if b.secPerClus = 0 ∨ b.secPerClus &&& (b.secPerClus - 1) ≠ 0 then none
    else if b.rootEntCnt % sectorEntries ≠ 0 then none
    else if b.rsvdSecCnt = 0 then none
    else
      let sysect := word (b.rsvdSecCnt + fasize + b.rootEntCnt / sectorEntries)
      if b.totSec < sysect then none
      else
        let nclst := (b.totSec - sysect) / b.secPerClus
        if nclst = 0 then none
        else
          let fsType := if minFat32 ≤ nclst then FatType.fat32
            else if minFat16 ≤ nclst then .fat16 else .fat12
          let nFatent := word (nclst + 2)
          let fatbase := word (bsect + b.rsvdSecCnt)
          if fsType = .fat32 ∧ b.rootEntCnt ≠ 0 ∨ fsType ≠ .fat32 ∧ b.rootEntCnt = 0 then none
          else
            let dirbase := if fsType = .fat32 then b.rootClus else word (fatbase + fasize)
            if b.fatSz < word (neededFat nFatent fsType + (ss - 1)) / ss then none
            else some ⟨fsType, b.secPerClus, b.numFats, b.rootEntCnt, nFatent, b.fatSz, bsect,
              fatbase, dirbase, word (bsect + sysect)⟩

variable (faults : Faults)

variable {faults} {g : Geometry} {b : Bpb} {s : FatFs} {bsect sect : Nat} {init : DStatus}
variable {wmode : Bool} {o o' : FatObject}

/-! The fields. -/

/-- They are read from the sector. -/
theorem readBpb_congr {win win' : Memory} (h : ∀ i < ss, win i = win' i) :
    readBpb win = readBpb win' := by
  have h16 : ∀ a, a + 1 < ss → load16 win a = load16 win' a :=
    fun a ha => load16_congr (h a (by omega)) (h (a + 1) ha)
  have h32 : ∀ a, a + 4 ≤ ss → load32 win a = load32 win' a :=
    fun a ha => load32_congr fun x _ hx => h x (by omega)
  unfold readBpb
  rw [h16 11 (by decide), h16 22 (by decide), h32 36 (by decide), h 16 (by decide),
    h 13 (by decide), h16 17 (by decide), h16 19 (by decide), h32 32 (by decide),
    h16 14 (by decide), h32 44 (by decide), h16 48 (by decide)]

/-- The areas that the boot sector names lie in the volume, the volume lies where sectors have
numbers, and the numbers of its clusters fit into the entries of a FAT32. -/
structure Bpb.Fits (b : Bpb) (bsect : Nat) : Prop where
  areas : b.rsvdSecCnt + b.fatSz * b.numFats + b.rootEntCnt / sectorEntries ≤ b.totSec
  numbered : bsect + b.totSec < noSector
  named : b.totSec / b.secPerClus + 2 ≤ lastLink .fat32

/-- The table of the root is in a place of its own, behind the FAT. -/
structure RootTable (g : Geometry) : Prop where
  entries : 0 < g.nRootdir
  whole : g.nRootdir % perSect = 0
  behind : g.fatbase + g.nFats * g.fsize ≤ g.dirbase
  below : g.dirbase + g.nRootdir / perSect ≤ g.database

/-- The window holds a sector of the medium, which has not been written to. -/
structure Loaded (mem : Memory) (s : FatFs) (sect : Nat) : Prop where
  clean : s.wflag = false
  medium : s.drive.mem = mem
  sector : s.winsect = sect
  win : s.win = load mem (ss * sect)

/-- The window holds a sector or none. -/
structure Idle (mem : Memory) (s : FatFs) : Prop where
  clean : s.wflag = false
  medium : s.drive.mem = mem
  held : s.winsect = noSector ∨ s.win = load mem (ss * s.winsect)

variable {mem : Memory}

theorem Loaded.idle (h : Loaded mem s sect) : Idle mem s :=
  ⟨h.clean, h.medium, .inr (by rw [h.win, h.sector])⟩

theorem Idle.coherent (h : Idle mem s) : Coherent s where
  clean _ hne i _ := by
    rw [h.held.resolve_left hne, h.medium]
    rfl
  valid hdirty := by rw [h.clean] at hdirty; cases hdirty

/-- A request through a window without changes. -/
theorem Idle.moveWindow (h : Idle mem s) {r : FResult} {s' : FatFs}
    (hmove : moveWindow faults g s sect = (s', r)) :
    Idle mem s' ∧ (r = .ok → sect ≠ noSector → Loaded mem s' sect) ∧
      (s'.winsect = sect ∨ s'.winsect = noSector) := by
  unfold Fs.moveWindow at hmove
  split at hmove
  next hsame =>
    cases hmove
    refine ⟨h, fun _ hne => ?_, .inl hsame.symm⟩
    have hwin := h.held.resolve_left (hsame ▸ hne)
    exact ⟨h.clean, h.medium, hsame.symm, by rw [hwin, hsame]⟩
  next =>
    have hsync : syncWindow faults g s = (s, .ok) := if_neg (by simp [h.clean])
    rw [hsync] at hmove
    dsimp only at hmove
    rw [if_pos rfl] at hmove
    have hmem := (diskRead_mem faults s.drive sect).trans h.medium
    split at hmove
    next hdone =>
      cases hmove
      have hwin := diskRead_done hdone
      rw [h.medium] at hwin
      exact ⟨⟨h.clean, hmem, .inr hwin⟩, fun _ _ => ⟨h.clean, hmem, rfl, hwin⟩, .inl rfl⟩
    next =>
      cases hmove
      refine ⟨⟨h.clean, hmem, .inl rfl⟩, fun hok => ?_, .inr rfl⟩
      cases hok

/-- A boot sector that is accepted is the one that was asked for. -/
def Found (mem : Memory) (s : FatFs) (bsect : Nat) (fmt : BootSector) : Prop :=
  Idle mem s ∧ (fmt = .fat → bsect ≠ noSector → Loaded mem s bsect)

/-- The window is in front of the clusters, or it has no sector. -/
def InFront (vol : Volume) (s : FatFs) : Prop := s.winsect < vol.database ∨ s.winsect = noSector

/-- Directories without a cluster in common, on a volume with room for the FSINFO sector of a
FAT32 and, unless requests fail, without an entry of the FAT that is 1. -/
structure Usable (faults : Faults) (vol : Volume) (s : FatFs) (dirs : List Nat)
    (tableOf : Nat → List Nat) : Prop where
  tables : ∀ d ∈ dirs, Directory vol s d (tableOf d)
  apart : ∀ d ∈ dirs, ∀ e ∈ dirs, d ≠ e → List.Disjoint (tableOf d) (tableOf e)
  ones : Faulty faults ∨ NoOnes vol s
  info : InfoInFront vol

/-- Only the directories have clusters. -/
def dirChains (tableOf : Nat → List Nat) : Owner → List Nat
  | .file _ => []
  | .dir d => tableOf d

/-- A session can be started in such directories. -/
theorem Usable.session {vol : Volume} {dirs : List Nat} {tableOf : Nat → List Nat}
    (h : Usable faults vol s dirs tableOf) (hc : Coherent s) (hfront : InFront vol s) :
    SessionInv faults vol ⟨s, [], dirs⟩ := by
  refine ⟨hc, h.ones, h.info, dirChains tableOf, ⟨fun _ _ ht => ?_, h.tables, ?_, fun _ hi => ?_,
    .front hfront s [], fun _ _ ht => ?_⟩⟩
  · cases ht
  · intro a b hne ha hb
    cases a with
    | file i => exact absurd ha (Nat.not_lt_zero i)
    | dir d =>
      cases b with
      | file i => exact absurd hb (Nat.not_lt_zero i)
      | dir e => exact h.apart d ha e hb fun heq => hne (congrArg Owner.dir heq)
  · exact absurd hi (Nat.not_lt_zero _)
  · cases ht

/-- The root of a FAT12 or FAT16 is a directory. -/
theorem RootTable.directory {vol : Volume} (h : RootTable vol.toGeometry)
    (htype : vol.fsType ≠ .fat32) (s : FatFs) : Directory vol s 0 [] := by
  have hclusters := vol.clusters
  refine ⟨⟨trivial, fun c hc => by cases hc⟩, ⟨by decide, by omega, ?_⟩, fun _ =>
    ⟨h.entries, h.whole, h.behind, h.below⟩⟩
  rw [if_neg fun hboth => htype hboth.2]
  rfl

end PosixRtos.Fs
