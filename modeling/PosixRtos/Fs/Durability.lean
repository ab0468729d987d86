import PosixRtos.Fs.Mount

/-! What is on the medium when `f_sync` has returned, and what is found there after a failure of
the power. -/
namespace PosixRtos.Fs

open PosixRtos.Library.ByteMemory PosixRtos.Library.Overlay PosixRtos.Library.Chains
open PosixRtos.Library.Runs
open PosixRtos.Heap (word sub32)

variable {faults : Faults} {vol : Volume} {s s' : FatFs} {fp fp' : Fil} {chain : List Nat}
variable {known : Nat → Option Byte} {tm dirSect dirPtr x : Nat} {win mem : Memory}

/-! The directory entry. -/

/-- What a directory entry says of a file. -/
structure Entry (mem : Memory) (a fsize sclust : Nat) : Prop where
  size : load32 mem (a + 28) = fsize
  low : load16 mem (a + 26) = sclust % 2 ^ 16
  high : load16 mem (a + 20) = sclust / 2 ^ 16

theorem Entry.congr {mem' : Memory} {a a' fsize sclust : Nat} (h : Entry mem a fsize sclust)
    (hmem : ∀ i < 32, mem' (a' + i) = mem (a + i)) : Entry mem' a' fsize sclust where
  size := by
    rw [← h.size, load32_eq_iff]
    intro i hi
    rw [Nat.add_assoc, Nat.add_assoc]
    exact hmem _ (by omega)
  low := by
    rw [← h.low]
    exact load16_congr (hmem 26 (by omega)) (hmem 27 (by omega))
  high := by
    rw [← h.high]
    exact load16_congr (hmem 20 (by omega)) (hmem 21 (by omega))

/-- The start is read as it was written. -/
theorem Entry.ldClust {a fsize sclust : Nat} (h : Entry mem a fsize sclust)
    (hstart : sclust ≤ lastLink vol.fsType) : ldClust vol.toGeometry mem a = sclust := by
  unfold Fs.ldClust
  dsimp only
  rw [h.low, h.high]
  split
  next =>
    rw [Nat.or_comm, ← Nat.shiftLeft_add_eq_or_of_lt (Nat.mod_lt _ (by decide)), Nat.shiftLeft_eq]
    omega
  next hfat =>
    apply Nat.mod_eq_of_lt
    cases htype : vol.fsType with
    | fat12 =>
      rw [htype] at hstart
      exact hstart.trans_lt (by decide)
    | fat16 =>
      rw [htype] at hstart
      exact hstart.trans_lt (by decide)
    | fat32 => exact absurd htype hfat

/-- Where a directory entry is: behind the FAT, and not in the file itself. -/
structure Placed (vol : Volume) (chain : List Nat) (dirSect dirPtr : Nat) : Prop where
  behind : vol.fatbase + vol.nFats * vol.fsize ≤ dirSect
  valid : dirSect < noSector
  inside : dirPtr + 32 ≤ ss
  apart : ∀ k < chain.length * vol.csize, fileSect vol.toGeometry chain k ≠ dirSect

/-- The entries of a directory are not in a file. -/
theorem AtHome.placed {sclust : Nat} {table : List Nat} {t : Tracked}
    (hhome : AtHome vol t table) (hdir : Directory vol s sclust table)
    (hchain : Chain vol s chain) (hapart : List.Disjoint chain table) :
    Placed vol chain t.dirSect t.dirPtr := by
  obtain ⟨j, hj, hsect, hptr⟩ := hhome
  have hm := (lt_entryCount.mp hj).1
  have hsector := hdir.sector hm
  have hbelow := vol.data_below
  rw [← hsect] at hsector
  refine ⟨hsector.1, by omega, ?_, fun k hk hsame => ?_⟩
  · have hmod : j % perSect < perSect := Nat.mod_lt j (by decide)
    rw [perSect_eq] at *
    unfold szDire at hptr
    unfold ss
    omega
  · obtain ⟨c, hc⟩ := exists_cluster hk
    have hmem := List.mem_of_getElem? hc
    rw [fileSect_eq hc, hsect] at hsame
    exact hdir.apart hm (hchain.2 c hmem) (hapart hmem) (Nat.mod_lt k vol.csize_pos) hsame

/-- A file as it is on a medium. -/
structure OnMedium (vol : Volume) (mem : Memory) (chain : List Nat) (known : Nat → Option Byte)
    (fsize dir : Nat) : Prop where
  entry : Entry mem dir fsize (chain.headD 0)
  linked : Linked (fatEntry vol.toGeometry mem) (vol.nFatent ≤ ·) chain
  clusters : Clusters vol chain
  room : fsize ≤ ss * (chain.length * vol.csize)
  limit : fsize < 2 ^ 32
  bytes : ∀ o b, o < fsize → known o = some b →
    mem (ss * fileSect vol.toGeometry chain (o / ss) + o % ss) = b

/-- A sector behind the FAT counts. -/
theorem Placed.counts {i : Nat} (h : Placed vol chain dirSect dirPtr) (hi : i < ss) :
    vol.Counts (ss * dirSect + i) := by
  have hbehind := Nat.mul_le_mul_left ss h.behind
  have hvalid : ss * (dirSect + 1) ≤ ss * noSector := Nat.mul_le_mul_left _ h.valid
  rw [Nat.mul_succ] at hvalid
  refine ⟨by omega, fun hmirror => ?_⟩
  have := hmirror.2
  omega

variable {s₁ s₂ : FatFs}

/-- The file is there again when it is opened. -/
theorem OnMedium.opened {fsize dir : Nat} (h : OnMedium vol mem chain known fsize dir)
    (hview : ∀ x < ss * noSector, s.view x = mem x) (hdir : dir + 32 ≤ ss * noSector)
    (faRead faWrite : Bool) (clust : Nat) (buf : Memory) :
    FileInv vol s (openedFile vol.toGeometry faRead faWrite clust buf s.view dir) chain known ∧
      (openedFile vol.toGeometry faRead faWrite clust buf s.view dir).fsize = fsize := by
  have hentry : Entry s.view dir fsize (chain.headD 0) :=
    h.entry.congr fun i hi => hview _ (by omega)
  have hsize : (openedFile vol.toGeometry faRead faWrite clust buf s.view dir).fsize = fsize :=
    hentry.size
  have hextent : (openedFile vol.toGeometry faRead faWrite clust buf s.view dir).extent = fsize :=
    (Nat.zero_max _).trans hsize
  have hhead : chain.headD 0 ≤ lastLink vol.fsType := by
    cases chain with
    | nil => exact Nat.zero_le _
    | cons c cs =>
      have hlt := (h.clusters.range c (List.mem_cons_self ..)).2
      have hends := vol.ends_known
      rw [List.headD_cons]
      omega
  have hbyte : ∀ o < fsize, vol.database ≤ fileSect vol.toGeometry chain (o / ss) ∧
      ss * fileSect vol.toGeometry chain (o / ss) + o % ss < ss * noSector := by
    intro o ho
    have hdata := h.clusters.data (Nat.div_lt_of_lt_mul (ho.trans_le h.room))
    exact ⟨hdata.1, (byte_counts hdata.1 hdata.2 (Nat.mod_lt o (by decide))).2⟩
  refine ⟨⟨⟨⟨h.linked.congr fun c hcm => ?_, h.clusters.range⟩, h.clusters.nodup,
    hentry.ldClust hhead, by rw [hextent]; exact h.room, by rw [hextent]; exact h.limit,
    ?_, ?_, ?_⟩,
    fun hpos => absurd hpos (lt_irrefl 0), fun hpartial => absurd rfl hpartial⟩, hsize⟩
  · apply fatEntry_congr (h.clusters.range c hcm).2
    intro x hx
    exact hview x (fatArea_counts hx).1
  · intro hdirty
    cases hdirty
  · intro o b ho _ hhere
    rw [hextent] at ho
    have hreserved := vol.reserved
    have hbelow := vol.fats_below
    have := (hbyte o ho).1
    rw [← hhere] at this
    change vol.database ≤ 0 at this
    omega
  · intro o b ho hknown _
    rw [hextent] at ho
    rw [hview _ (hbyte o ho).2]
    exact h.bytes o b ho hknown

/-- The boot sector of the volume, whose sizes do not wrap. -/
structure Described (vol : Volume) (mem : Memory) : Prop where
  geometry : (readBpb (load mem (ss * vol.volbase))).geometry vol.volbase = some vol.toGeometry
  fits : (readBpb (load mem (ss * vol.volbase))).Fits vol.volbase

theorem Described.congr {mem' : Memory} (h : Described vol mem)
    (hboot : ∀ x < ss * (vol.volbase + 1), mem' x = mem x) : Described vol mem' := by
  have hread : readBpb (load mem' (ss * vol.volbase)) =
      readBpb (load mem (ss * vol.volbase)) := by
    apply readBpb_congr
    intro i hi
    apply hboot
    unfold ss at *
    omega
  exact ⟨hread ▸ h.geometry, hread ▸ h.fits⟩

variable {st st' : Session} {t : Tracked} {i : Nat}

end PosixRtos.Fs
