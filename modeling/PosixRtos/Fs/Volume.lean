import Mathlib.Tactic
import PosixRtos.Heap.Malloc

/-! A mounted volume of `ff.c`. `find_volume` fills the fields of `FATFS` that say where
things are; they do not change afterwards. Sector and cluster numbers are 32-bit
words. -/
namespace PosixRtos.Fs

open PosixRtos.Heap (word sub32)

/-- `SS(fs)`: `_MIN_SS` and `_MAX_SS` are equal. -/
def ss : Nat := 512

/-- What the modelled functions return of `FRESULT`. -/
inductive FResult where
  | ok
  | diskErr
  | intErr
  | notReady
  | denied
  | exist
  | invalidObject
  | writeProtected
  | noFilesystem
deriving DecidableEq, Repr

inductive FatType where
  | fat12
  | fat16
  | fat32
deriving DecidableEq, Repr

structure Geometry where
  fsType : FatType
  csize : Nat
  nFats : Nat
  nRootdir : Nat
  nFatent : Nat
  fsize : Nat
  volbase : Nat
  fatbase : Nat
  dirbase : Nat
  database : Nat
deriving DecidableEq, Repr

/-- The bytes of a FAT with `n` entries. -/
def fatBytes (n : Nat) : FatType → Nat
  | .fat12 => (3 * n + 1) / 2
  | .fat16 => 2 * n
  | .fat32 => 4 * n

/-- The mark of the last cluster of a chain, as it is read back. -/
def lastLink : FatType → Nat
  | .fat12 => 0xfff
  | .fat16 => 0xffff
  | .fat32 => 0x0fffffff

/-- A volume whose areas lie one behind the other: reserved sectors, the copies of the
FAT, the root directory and the clusters. -/
structure Volume extends Geometry where
  csize_pow : ∃ k ≤ 7, csize = 2 ^ k
  nFats_cases : nFats = 1 ∨ nFats = 2
  clusters : 2 < nFatent
  ends_known : nFatent ≤ lastLink fsType
  fat_fits : fatBytes nFatent fsType ≤ ss * fsize
  reserved : volbase < fatbase
  fats_below : fatbase + nFats * fsize ≤ database
  data_fits : database + (nFatent - 2) * csize < 2 ^ 32

/-- `clust2sect` -/
def clust2sect (g : Geometry) (clst : Nat) : Nat :=
  let clst := sub32 clst 2
  if sub32 g.nFatent 2 ≤ clst then 0 else word (clst * g.csize + g.database)

variable (vol : Volume)

theorem Volume.csize_pos : 0 < vol.csize := by
  obtain ⟨k, -, hk⟩ := vol.csize_pow
  rw [hk]
  exact Nat.two_pow_pos k

theorem Volume.csize_le : vol.csize ≤ 128 := by
  obtain ⟨k, hle, hk⟩ := vol.csize_pow
  rw [hk]
  exact Nat.pow_le_pow_right (by omega) hle

/-- There is at least one FAT. -/
theorem Volume.one_fat : vol.fatbase + vol.fsize ≤ vol.fatbase + vol.nFats * vol.fsize := by
  apply Nat.add_le_add_left
  apply Nat.le_mul_of_pos_left
  have hcopies := vol.nFats_cases
  omega

theorem lastLink_lt (t : FatType) : lastLink t < 2 ^ 28 := by
  cases t <;> decide

theorem Volume.nFatent_lt : vol.nFatent < 2 ^ 28 :=
  vol.ends_known.trans_lt (lastLink_lt _)

variable {vol} {clst : Nat}

/-- The sectors of a cluster. -/
theorem clust2sect_eq (hclst : 2 ≤ clst) (hlt : clst < vol.nFatent) :
    clust2sect vol.toGeometry clst = (clst - 2) * vol.csize + vol.database := by
  have hsmall := vol.nFatent_lt
  have hdata := vol.data_fits
  have hle : (clst - 2) * vol.csize ≤ (vol.nFatent - 2) * vol.csize :=
    Nat.mul_le_mul_right _ (by omega)
  have hclst2 : sub32 clst 2 = clst - 2 := by
    unfold sub32 word
    omega
  have hent2 : sub32 vol.nFatent 2 = vol.nFatent - 2 := by
    unfold sub32 word
    omega
  unfold clust2sect
  rw [hclst2, hent2]
  dsimp only
  rw [if_neg (by omega), word, Nat.mod_eq_of_lt (by omega)]

end PosixRtos.Fs
