import PosixRtos.Fs.Contents

/-! `f_read` gives the bytes that the file holds from the file pointer on. -/
namespace PosixRtos.Fs

open PosixRtos.Library.ByteMemory PosixRtos.Library.Overlay PosixRtos.Library.Chains
open PosixRtos.Heap (word sub32)

variable {faults : Faults} {vol : Volume} {s s' : FatFs} {fp fp' : Fil}
variable {chain : List Nat} {known : Nat → Option Byte} {k n : Nat}

/-- The bytes agree with what is known of the file from `pos` on. -/
def Reads (known : Nat → Option Byte) (pos : Nat) (bytes : List Byte) : Prop :=
  ∀ i b, i < bytes.length → known (pos + i) = some b → bytes[i]? = some b

theorem Reads.append {pos : Nat} {bytes bytes' : List Byte} (h : Reads known pos bytes)
    (h' : Reads known (pos + bytes.length) bytes') : Reads known pos (bytes ++ bytes') := by
  intro i b hi hknown
  by_cases hlt : i < bytes.length
  · rw [List.getElem?_append_left hlt]
    exact h i b hlt hknown
  · rw [List.getElem?_append_right (by omega)]
    rw [List.length_append] at hi
    apply h' _ b (by omega)
    rw [← hknown]
    congr 1
    omega

theorem Reads.of_read {pos a : Nat} {mem : Memory}
    (h : ∀ i b, i < n → known (pos + i) = some b → mem (a + i) = b) :
    Reads known pos (read mem a n) := by
  intro i b hi hknown
  rw [length_read] at hi
  unfold Library.ByteMemory.read
  rw [List.getElem?_map, List.getElem?_range hi, Option.map_some, h i b hi hknown]

/-! The cluster. -/

theorem Holds.withClust (h : Holds vol s fp chain known) (c : Nat) :
    Holds vol s { fp with clust := c } chain known :=
  ⟨h.linked, h.nodup, h.start, h.room, h.limit, h.dirty, h.buffered, h.stored⟩

theorem FileInv.first (h : FileInv vol s fp chain known) (hne : chain ≠ []) :
    chain[0]? = some fp.sclust ∧ 2 ≤ fp.sclust ∧ fp.sclust < vol.nFatent := by
  obtain ⟨c, cs, rfl⟩ := List.exists_cons_of_ne_nil hne
  rw [h.start]
  exact ⟨rfl, h.linked.2 c List.mem_cons_self⟩

theorem readCluster_spec {r : FResult} (h : FileInv vol s fp chain known) (hc : Coherent s)
    (hstart : fp.fptr % ss = 0) (hboundary : fp.fptr / ss % vol.csize = 0)
    (hlt : fp.fptr / ss < chain.length * vol.csize)
    (hcall : readCluster faults vol.toGeometry s fp = (s', fp', r)) :
    Kept vol.toGeometry s s' ∧ Stays vol s s' ∧
      (r = .ok ∧ (∃ c, fp' = { fp with clust := c } ∧
        chain[fp.fptr / ss / vol.csize]? = some c) ∨ r = .diskErr ∧ Faulty faults) := by
  have hsmall := vol.nFatent_lt
  unfold readCluster at hcall
  by_cases hzero : fp.fptr = 0
  · have hne : chain ≠ [] := by
      rintro rfl
      simp at hlt
    obtain ⟨hfirst, htwo, hfatent⟩ := h.first hne
    simp only [if_pos hzero] at hcall
    rw [if_neg (by omega), if_neg (by unfold diskError; omega)] at hcall
    cases hcall
    refine ⟨.refl hc, .refl vol s, .inl ⟨rfl, _, rfl, ?_⟩⟩
    rw [hzero, Nat.zero_div, Nat.zero_div]
    exact hfirst
  · obtain ⟨i, hi, hclust⟩ := h.boundary (by omega) hstart hboundary
    obtain ⟨c, hcluster⟩ := exists_cluster hlt
    have hmem := List.mem_of_getElem? hclust
    have hrange := h.linked.2 _ hmem
    have hrange' := h.linked.2 c (List.mem_of_getElem? hcluster)
    have hnext : fatEntry vol.toGeometry s.view fp.clust = c := by
      obtain ⟨hlen, hci⟩ := List.getElem?_eq_some_iff.mp hcluster
      obtain ⟨hlen', hclust'⟩ := List.getElem?_eq_some_iff.mp hclust
      have hlink := h.linked.1.next_eq (i := i) (by omega)
      rw [hclust'] at hlink
      rw [hlink, ← hci]
      congr 1
    have hget := getFat_stays faults vol s fp.clust
    simp only [if_neg hzero] at hcall
    generalize hcalled : getFat faults vol.toGeometry s fp.clust = got at hcall hget
    obtain ⟨s₁, v⟩ := got
    obtain ⟨hkept, rfl | ⟨rfl, hfaulty⟩⟩ := getFat_spec hc hrange.1 hrange.2 hcalled
    · rw [hnext] at hcall
      dsimp only at hcall
      rw [if_neg (by omega), if_neg (by unfold diskError; omega)] at hcall
      cases hcall
      exact ⟨hkept, hget, .inl ⟨rfl, c, rfl, hcluster⟩⟩
    · dsimp only at hcall
      rw [if_neg (by decide), if_pos rfl] at hcall
      cases hcall
      exact ⟨hkept, hget, .inr ⟨rfl, hfaulty⟩⟩

/-! The file pointer. -/

/-- The file pointer moves on within the file, not beyond the current cluster. -/
theorem Holds.advance (h : Holds vol s fp chain known)
    (hclust : chain[fp.fptr / ss / vol.csize]? = some fp.clust) (hn : 0 < n)
    (hcluster : (fp.fptr + n - 1) / ss / vol.csize = fp.fptr / ss / vol.csize)
    (hsize : fp.fptr + n ≤ fp.fsize)
    (hsector : (fp.fptr + n) % ss ≠ 0 →
      fp.dsect = fileSect vol.toGeometry chain ((fp.fptr + n) / ss)) :
    FileInv vol s { fp with fptr := fp.fptr + n } chain known := by
  have hextent : Fil.extent { fp with fptr := fp.fptr + n } = fp.extent := by
    unfold Fil.extent
    dsimp only
    omega
  refine ⟨⟨h.linked, h.nodup, h.start, ?_, ?_, h.dirty, ?_, ?_⟩, ?_, hsector⟩
  · rw [hextent]
    exact h.room
  · rw [hextent]
    exact h.limit
  · rw [hextent]
    exact h.buffered
  · rw [hextent]
    exact h.stored
  · intro _
    dsimp only
    rw [hcluster]
    exact hclust

/-- The current cluster inside of a sector. -/
theorem FileInv.clust_inside (h : FileInv vol s fp chain known) (hinside : fp.fptr % ss ≠ 0) :
    chain[fp.fptr / ss / vol.csize]? = some fp.clust := by
  have hpos : 0 < fp.fptr := by
    by_contra hzero
    simp [show fp.fptr = 0 by omega] at hinside
  have hcluster := h.cluster hpos
  rwa [pred_div_of_mod_ne hinside] at hcluster

theorem length_pick (fp : Fil) (btr : Nat) : (fp.pick btr).length =
    if btr < ss - fp.fptr % ss then btr else ss - fp.fptr % ss := length_read _ _ _

/-- A part of the sector in the buffer. -/
theorem Holds.pick (h : Holds vol s fp chain known) {btr : Nat}
    (hclust : chain[fp.fptr / ss / vol.csize]? = some fp.clust)
    (hdsect : fp.dsect = fileSect vol.toGeometry chain (fp.fptr / ss)) (hpos : 0 < btr)
    (hsize : fp.fptr + btr ≤ fp.fsize) :
    0 < (fp.pick btr).length ∧ (fp.pick btr).length ≤ btr ∧ Reads known fp.fptr (fp.pick btr) ∧
      FileInv vol s { fp with fptr := fp.fptr + (fp.pick btr).length } chain known := by
  have hmod : fp.fptr % ss < ss := Nat.mod_lt _ (by decide)
  have hlength : 0 < (fp.pick btr).length ∧ (fp.pick btr).length ≤ btr ∧
      fp.fptr % ss + (fp.pick btr).length ≤ ss := by
    rw [length_pick]
    split <;> omega
  refine ⟨hlength.1, hlength.2.1, ?_, ?_⟩
  · rw [length_pick] at hlength
    apply Reads.of_read
    intro i b hi hknown
    obtain ⟨hdiv, hoffset⟩ := sector_same (a := fp.fptr) (m := i) (by omega)
    have hbuf := h.buffered (fp.fptr + i) b (by unfold Fil.extent; omega) hknown
    rw [hdiv, hoffset] at hbuf
    exact hbuf hdsect
  · apply h.advance hclust hlength.1 _ (by omega)
    · intro hpartial
      rw [hdsect]
      congr 1
      unfold ss at *
      omega
    · rw [Nat.add_sub_assoc hlength.1, (sector_same (by omega)).1]

/-! Whole sectors. -/

theorem readSectors_spec {csect cc : Nat} {r : Except FResult (List Byte)}
    (h : Holds vol s fp chain known) (hc : Coherent s) (hclear : Clear vol s chain)
    (hstart : fp.fptr % ss = 0) (hcsect : csect = fp.fptr / ss % vol.csize)
    (hclust : chain[fp.fptr / ss / vol.csize]? = some fp.clust) (hcc : 0 < cc)
    (hsize : fp.fptr + ss * cc ≤ fp.fsize)
    (hcall : readSectors faults vol.toGeometry s fp csect
      (fileSect vol.toGeometry chain (fp.fptr / ss)) cc = (s', fp', r)) :
    Kept vol.toGeometry s s' ∧ Stays vol s s' ∧ fp' = fp ∧
      ((∃ bytes, r = .ok bytes ∧ 0 < bytes.length ∧
      bytes.length ≤ ss * cc ∧ Reads known fp.fptr bytes ∧
        FileInv vol s' { fp with fptr := fp.fptr + bytes.length } chain known) ∨
      r = .error .diskErr ∧ Faulty faults) := by
  have hmod : fp.fptr / ss % vol.csize < vol.csize := Nat.mod_lt _ vol.csize_pos
  unfold readSectors at hcall
  dsimp only at hcall
  obtain ⟨m, hm⟩ : ∃ m, (if vol.csize < csect + cc then vol.csize - csect else cc) = m := ⟨_, rfl⟩
  have hbounds : 0 < m ∧ m ≤ cc ∧ fp.fptr / ss % vol.csize + m ≤ vol.csize := by
    rw [← hm]
    split <;> omega
  have hbytes : ss * m ≤ ss * cc := Nat.mul_le_mul_left _ hbounds.2.1
  have hsector : fp.fptr / ss < chain.length * vol.csize := by
    apply h.sector_lt
    have := Nat.mul_pos (show 0 < ss by decide) hcc
    unfold Fil.extent
    omega
  obtain ⟨hin, hend⟩ := h.clusters.run hsector hbounds.1 hbounds.2.2
  rw [hm] at hcall
  split at hcall
  next hfailed =>
    cases hcall
    exact ⟨diskRead_kept faults _ hc, .inl rfl, rfl,
      .inr ⟨rfl, diskRead_failed (by simpa using hfailed)⟩⟩
  next hread =>
    have hdone : (diskRead faults s.drive (fileSect vol.toGeometry chain (fp.fptr / ss))).2.1 =
        true := by simpa using hread
    cases hcall
    refine ⟨diskRead_kept faults _ hc, .inl rfl, rfl, .inl ⟨_, rfl, ?_⟩⟩
    rw [length_read]
    have hpos : 0 < ss * m := Nat.mul_pos (by decide) hbounds.1
    refine ⟨hpos, hbytes, ?_, ?_⟩
    · apply Reads.of_read
      intro i b hi hknown
      rw [Nat.zero_add]
      have hj : i / ss < m := Nat.div_lt_of_lt_mul hi
      have hdiv : (fp.fptr + i) / ss = fp.fptr / ss + i / ss := by
        unfold ss at *
        omega
      have hoffset : (fp.fptr + i) % ss = i % ss := by
        unfold ss at *
        omega
      have hlt : fp.fptr + i < fp.extent := by
        unfold Fil.extent
        omega
      have hdata := h.clusters.data (h.sector_lt hlt)
      have hbuf := h.buffered _ b hlt hknown
      have hstored := h.stored _ b hlt hknown
      have hmem := h.diskRead hclear (h.sector_lt hlt) (Nat.mod_lt i (by decide))
      rw [hdiv, (hin _ hj).2] at hbuf hstored hmem hdata
      rw [hoffset] at hbuf hstored
      have hplace : ss * (fileSect vol.toGeometry chain (fp.fptr / ss) + i / ss) + i % ss =
          ss * fileSect vol.toGeometry chain (fp.fptr / ss) + i := by
        rw [Nat.mul_add, Nat.add_assoc, Nat.div_add_mod]
      rw [diskRead_done hdone]
      generalize fileSect vol.toGeometry chain (fp.fptr / ss) = sect at *
      have hwords := vol.data_fits
      by_cases hhere : fp.dirty = true ∧ fp.dsect = sect + i / ss
      · have hindex : sub32 fp.dsect sect = i / ss := by
          rw [hhere.2]
          exact sub32_add (by omega)
        rw [if_pos ⟨hhere.1, by omega⟩, hindex, write_read_apply, if_pos]
        · rw [← hbuf hhere.2]
          congr 1
          unfold ss
          omega
        · unfold ss
          omega
      · have hdirect : load s.drive.mem (ss * sect) i = b := by
          rw [load, ← hplace, hmem]
          exact hstored fun hdirty heq => hhere ⟨hdirty, heq⟩
        split
        next hother =>
          obtain ⟨k, hk, hdsect⟩ := h.dirty hother.1
          have hdata' := h.clusters.data hk
          obtain ⟨hle, -⟩ := (sub32_inside (by omega) (by omega)).mp hother.2
          obtain ⟨j, hj'⟩ := Nat.exists_eq_add_of_le hle
          have hindex : sub32 fp.dsect sect ≠ i / ss := by
            rw [hj', sub32_add (by omega)]
            rintro rfl
            exact hhere ⟨hother.1, hj'⟩
          rw [write_read_apply, if_neg, hdirect]
          unfold ss at hindex ⊢
          omega
        next => exact hdirect
    · apply (h.kept (diskRead_kept faults _ hc)).advance hclust hpos _ (by omega)
      · intro hpartial
        exact absurd (by unfold ss at *; omega) hpartial
      · have hlast : (fp.fptr + ss * m - 1) / ss = fp.fptr / ss + (m - 1) := by
          unfold ss at *
          omega
        rw [hlast]
        exact div_add_inside (by omega)

/-! The loop. -/

/-- The current cluster at the start of a sector, whether it is the first of its cluster or
not. -/
theorem nextCluster_spec {r : FResult} (h : FileInv vol s fp chain known) (hc : Coherent s)
    (hstart : fp.fptr % ss = 0) (hlt : fp.fptr / ss < chain.length * vol.csize)
    (hcall : (if fp.csect vol.toGeometry = 0 then readCluster faults vol.toGeometry s fp
      else (s, fp, .ok)) = (s', fp', r)) :
    Kept vol.toGeometry s s' ∧ Stays vol s s' ∧
      (r = .ok ∧ (∃ c, fp' = { fp with clust := c } ∧
        chain[fp.fptr / ss / vol.csize]? = some c) ∨ r = .diskErr ∧ Faulty faults) := by
  split at hcall
  next hzero =>
    rw [csect_eq] at hzero
    exact readCluster_spec h hc hstart hzero hlt hcall
  next hne =>
    rw [csect_eq] at hne
    cases hcall
    exact ⟨.refl hc, .refl vol s, .inl ⟨rfl, fp.clust, rfl, h.inside hstart hne⟩⟩

theorem readRound_spec {btr : Nat} {r : Except FResult (List Byte)}
    (h : FileInv vol s fp chain known) (hc : Coherent s) (hclear : Clear vol s chain)
    (hpos : 0 < btr)
    (hsize : fp.fptr + btr ≤ fp.fsize)
    (hcall : readRound faults vol.toGeometry s fp btr = (s', fp', r)) :
    Progress vol s s' chain chain ∧ ((∃ bytes, r = .ok bytes ∧ 0 < bytes.length ∧
      bytes.length ≤ btr ∧
      Reads known fp.fptr bytes ∧ Steady fp fp' ∧
        FileInv vol s' { fp' with fptr := fp'.fptr + bytes.length } chain known) ∨
      r = .error .diskErr ∧ Faulty faults) := by
  have hsector : fp.fptr / ss < chain.length * vol.csize := by
    apply h.sector_lt
    unfold Fil.extent
    omega
  unfold readRound at hcall
  split at hcall
  next hstart =>
    obtain ⟨s₁, fp₁, r₁, hnext⟩ : ∃ s₁ fp₁ r₁, (if fp.csect vol.toGeometry = 0 then
      readCluster faults vol.toGeometry s fp else (s, fp, .ok)) = (s₁, fp₁, r₁) := ⟨_, _, _, rfl⟩
    dsimp only at hcall
    rw [hnext] at hcall
    dsimp only at hcall
    obtain ⟨hkept, hstays, ⟨rfl, c, rfl, hcluster⟩ | ⟨rfl, hfaulty⟩⟩ :=
      nextCluster_spec h hc hstart hsector hnext
    · have hholds := (h.toHolds.kept hkept).withClust c
      have hprogress := hkept.progress hstays chain
      have hclear₁ := hclear.kept hkept hstays
      obtain ⟨hsect, hword⟩ := hholds.sect_eq hcluster
      rw [if_neg (by simp), if_neg hsect, csect_eq, hword] at hcall
      split at hcall
      next hcc =>
        have hbytes : ss * (btr / ss) ≤ btr := Nat.mul_div_le _ _
        obtain ⟨hkept', hstays', rfl, hr⟩ :=
          readSectors_spec hholds hkept.coherent hclear₁ hstart rfl
          hcluster (Nat.pos_of_ne_zero hcc) (show fp.fptr + _ ≤ fp.fsize by omega) hcall
        refine ⟨hprogress.trans (hkept'.progress hstays' chain), hr.imp_left ?_⟩
        rintro ⟨bytes, rfl, hpos', hle, hreads, hinv⟩
        exact ⟨bytes, rfl, hpos', by omega, hreads, ⟨rfl, rfl, rfl, rfl, rfl, rfl⟩, hinv⟩
      next =>
        obtain ⟨s₂, fp₂, r₂, hload⟩ : ∃ s₂ fp₂ r₂, loadSector faults s₁ { fp with clust := c }
          (fileSect vol.toGeometry chain (fp.fptr / ss)) = (s₂, fp₂, r₂) := ⟨_, _, _, rfl⟩
        rw [hload] at hcall
        dsimp only at hcall
        obtain ⟨hprogress', hr⟩ := loadSector_spec hholds hkept.coherent hclear₁ hsector hload
        have hboth := hprogress.trans hprogress'
        rcases hr with ⟨rfl, hholds', hsteady, hclust, hdsect⟩ | ⟨rfl, hfaulty⟩
        · rw [if_neg (by simp)] at hcall
          have hptr : fp₂.fptr = fp.fptr := hsteady.fptr
          cases hcall
          obtain ⟨hpos', hle, hreads, hinv⟩ := hholds'.pick (by rw [hptr, hclust]; exact hcluster)
            (by rw [hptr]; exact hdsect) hpos (by rw [hptr, hsteady.fsize]; exact hsize)
          rw [hptr] at hreads
          exact ⟨hboth, .inl ⟨_, rfl, hpos', hle, hreads, ⟨hsteady.faRead, hsteady.faWrite,
            hsteady.err, hptr, hsteady.fsize, hsteady.sclust⟩, hinv⟩⟩
        · rw [if_pos (by simp)] at hcall
          cases hcall
          exact ⟨hboth, .inr ⟨rfl, hfaulty⟩⟩
    · rw [if_pos (by simp)] at hcall
      cases hcall
      exact ⟨hkept.progress hstays chain, .inr ⟨rfl, hfaulty⟩⟩
  next hinside =>
    cases hcall
    obtain ⟨hpos', hle, hreads, hinv⟩ :=
      h.toHolds.pick (h.clust_inside hinside) (h.sector hinside) hpos hsize
    exact ⟨.refl hc chain, .inl ⟨_, rfl, hpos', hle, hreads, .refl fp, hinv⟩⟩

/-- What a read or a write that succeeds leaves alone, apart from the file pointer. -/
structure SameFile (fp fp' : Fil) : Prop where
  faRead : fp'.faRead = fp.faRead
  faWrite : fp'.faWrite = fp.faWrite
  err : fp'.err = fp.err

theorem readLoop_spec (faults : Faults) (fuel btr : Nat) (s : FatFs) (fp : Fil) (got : List Byte)
    (h : FileInv vol s fp chain known) (hc : Coherent s) (hclear : Clear vol s chain)
    (hsize : fp.fptr + btr ≤ fp.fsize) (hfuel : btr < fuel) :
    ∃ s' fp' r bytes, readLoop faults vol.toGeometry fuel s fp btr got =
        some (s', fp', r, got ++ bytes) ∧ Progress vol s s' chain chain ∧
      (r = .ok ∧ bytes.length = btr ∧ Reads known fp.fptr bytes ∧ SameFile fp fp' ∧
          fp'.fptr = fp.fptr + btr ∧ fp'.fsize = fp.fsize ∧ FileInv vol s' fp' chain known ∨
        r = .diskErr ∧ fp'.err = .diskErr ∧ Faulty faults) := by
  induction fuel generalizing btr s fp got with
  | zero => omega
  | succ fuel ih =>
    unfold readLoop
    split
    next hzero =>
      refine ⟨s, fp, .ok, [], by rw [List.append_nil], .refl hc chain, .inl ⟨rfl, ?_, ?_,
        ⟨rfl, rfl, rfl⟩, by omega, rfl, h⟩⟩
      · exact hzero.symm
      · intro i b hi
        cases hi
    next hmore =>
      obtain ⟨s₁, fp₁, r₁, hround⟩ : ∃ s₁ fp₁ r₁,
        readRound faults vol.toGeometry s fp btr = (s₁, fp₁, r₁) := ⟨_, _, _, rfl⟩
      rw [hround]
      obtain ⟨hprogress, ⟨bytes, rfl, hpos, hle, hreads, hsteady, hinv⟩ | ⟨rfl, hfaulty⟩⟩ :=
        readRound_spec h hc hclear (Nat.pos_of_ne_zero hmore) hsize hround
      · dsimp only
        have hptr := hsteady.fptr
        obtain ⟨s₂, fp₂, r₂, rest, hloop, hprogress₂, hr⟩ := ih (btr - bytes.length) s₁
          { fp₁ with fptr := fp₁.fptr + bytes.length } (got ++ bytes) hinv
          hprogress.frame.coherent (hprogress.clear hclear)
          (by dsimp only; rw [hptr, hsteady.fsize]; omega) (by omega)
        refine ⟨s₂, fp₂, r₂, bytes ++ rest, by rw [hloop, List.append_assoc],
          hprogress.trans hprogress₂, hr.imp_left ?_⟩
        rintro ⟨rfl, hlength, hreads₂, hsame, hfptr, hfsize, hinv₂⟩
        dsimp only at hreads₂ hfptr hfsize
        rw [hptr] at hreads₂
        refine ⟨rfl, by rw [List.length_append]; omega, hreads.append hreads₂,
          ⟨hsame.faRead.trans hsteady.faRead, hsame.faWrite.trans hsteady.faWrite,
            hsame.err.trans hsteady.err⟩, by omega, hfsize.trans hsteady.fsize, hinv₂⟩
      · exact ⟨s₁, _, .diskErr, [], by rw [List.append_nil], hprogress, .inr ⟨rfl, rfl, hfaulty⟩⟩

/-- `f_read` of a file that is open for reading. -/
theorem fRead_spec (faults : Faults) (btr : Nat) (h : FileInv vol s fp chain known)
    (hc : Coherent s)
    (hclear : Clear vol s chain) (herr : fp.err = .ok) (hmode : fp.faRead = true)
    (hptr : fp.fptr ≤ fp.fsize) :
    ∃ s' fp' r bytes, fRead faults vol.toGeometry true s fp btr = some (s', fp', r, bytes) ∧
      Progress vol s s' chain chain ∧ (r = .ok ∧ bytes.length = min btr (fp.fsize - fp.fptr) ∧
        Reads known fp.fptr bytes ∧ SameFile fp fp' ∧ fp'.fptr = fp.fptr + bytes.length ∧
          fp'.fsize = fp.fsize ∧ FileInv vol s' fp' chain known ∨
        r = .diskErr ∧ fp'.err = .diskErr ∧ Faulty faults) := by
  have hlimit := h.limit
  have hremain : sub32 fp.fsize fp.fptr = fp.fsize - fp.fptr := by
    unfold Fil.extent at hlimit
    unfold sub32 word
    omega
  unfold fRead
  rw [herr, hmode, hremain]
  dsimp only
  rw [if_neg (by simp), if_neg (by simp), if_neg (by simp)]
  obtain ⟨n, hn⟩ : ∃ n, (if fp.fsize - fp.fptr < btr then fp.fsize - fp.fptr else btr) = n :=
    ⟨_, rfl⟩
  have hmin : n = min btr (fp.fsize - fp.fptr) := by
    rw [← hn]
    split <;> omega
  rw [hn]
  obtain ⟨s', fp', r, bytes, hloop, hprogress, hr⟩ := readLoop_spec faults (n + 1) n s fp []
    h hc hclear (by omega) (by omega)
  refine ⟨s', fp', r, bytes, hloop, hprogress, hr.imp_left ?_⟩
  rintro ⟨rfl, hlength, hreads, hsame, hfptr, hfsize, hinv⟩
  exact ⟨rfl, by omega, hreads, hsame, by omega, hfsize, hinv⟩

end PosixRtos.Fs
