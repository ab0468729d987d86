import PosixRtos.Fs.Extents

/-! What a file holds. `known` are the bytes that have been written to it, by their offset:
`f_lseek` can make a file longer, and what is there then is not known. -/
namespace PosixRtos.Fs

open PosixRtos.Library.ByteMemory PosixRtos.Library.Overlay PosixRtos.Library.Chains
open PosixRtos.Heap (word sub32)

/-- The end of the file. `f_write` sets the file size when its loop has ended. -/
def Fil.extent (fp : Fil) : Nat := max fp.fptr fp.fsize

/-- The file has the clusters `chain`, and the known bytes are in its buffer or on the
medium. -/
structure Holds (vol : Volume) (s : FatFs) (fp : Fil) (chain : List Nat)
    (known : Nat → Option Byte) : Prop where
  linked : Chain vol s chain
  nodup : chain.Nodup
  start : fp.sclust = chain.headD 0
  room : fp.extent ≤ ss * (chain.length * vol.csize)
  limit : fp.extent < 2 ^ 32
  dirty : fp.dirty = true → ∃ k < chain.length * vol.csize,
    fp.dsect = fileSect vol.toGeometry chain k
  buffered : ∀ o b, o < fp.extent → known o = some b →
    fp.dsect = fileSect vol.toGeometry chain (o / ss) → fp.buf (o % ss) = b
  stored : ∀ o b, o < fp.extent → known o = some b →
    (fp.dirty = true → fp.dsect ≠ fileSect vol.toGeometry chain (o / ss)) →
    s.view (ss * fileSect vol.toGeometry chain (o / ss) + o % ss) = b

/-- Between the calls: the cluster of the byte before the file pointer is the current one, and
inside of a sector the buffer has it. -/
structure FileInv (vol : Volume) (s : FatFs) (fp : Fil) (chain : List Nat)
    (known : Nat → Option Byte) : Prop extends Holds vol s fp chain known where
  cluster : 0 < fp.fptr → chain[(fp.fptr - 1) / ss / vol.csize]? = some fp.clust
  sector : fp.fptr % ss ≠ 0 → fp.dsect = fileSect vol.toGeometry chain (fp.fptr / ss)

variable {faults : Faults} {vol : Volume} {s s' s'' : FatFs} {fp fp' : Fil}
variable {chain chain' chain'' : List Nat} {known : Nat → Option Byte} {k o : Nat}

theorem Holds.clusters (h : Holds vol s fp chain known) : Clusters vol chain :=
  ⟨h.linked.2, h.nodup⟩

/-- The sector of a byte of the file. -/
theorem Holds.sector_lt (h : Holds vol s fp chain known) (ho : o < fp.extent) :
    o / ss < chain.length * vol.csize :=
  Nat.div_lt_of_lt_mul (ho.trans_le h.room)

/-- What another file does is not seen in this one. -/
theorem Holds.frame (h : Holds vol s fp chain known) (hframe : Elsewhere vol s s' chain')
    (hapart : List.Disjoint chain' chain) : Holds vol s' fp chain known where
  linked := by
    apply h.linked.congr
    intro c hc
    have hrange := h.linked.2 c hc
    have hused := h.linked.entry_cases hc
    exact hframe.entries c hrange.1 hrange.2 (fun hin => hapart hin hc) (by omega)
  nodup := h.nodup
  start := h.start
  room := h.room
  limit := h.limit
  dirty := h.dirty
  buffered := h.buffered
  stored o b ho hknown hbuffer := by
    have hsector := h.sector_lt ho
    obtain ⟨c, hc⟩ := exists_cluster hsector
    have hmem := List.mem_of_getElem? hc
    have hrange := h.linked.2 c hmem
    have hused := h.linked.entry_cases hmem
    have hold := h.stored o b ho hknown hbuffer
    rw [fileSect_eq hc] at hold ⊢
    rw [hframe.data c _ _ hrange.1 hrange.2 (fun hin => hapart hin hmem) (by omega)
      (Nat.mod_lt _ vol.csize_pos) (Nat.mod_lt _ (by decide)), hold]

theorem FileInv.frame (h : FileInv vol s fp chain known) (hframe : Elsewhere vol s s' chain')
    (hapart : List.Disjoint chain' chain) : FileInv vol s' fp chain known :=
  ⟨h.toHolds.frame hframe hapart, h.cluster, h.sector⟩

/-- A change of the FAT that leaves the file its clusters. -/
theorem Holds.fatOnly (h : Holds vol s fp chain known) (hfat : FatOnly vol.toGeometry s s')
    (hlinked : Chain vol s' chain) : Holds vol s' fp chain known := by
  refine ⟨hlinked, h.nodup, h.start, h.room, h.limit, h.dirty, h.buffered, ?_⟩
  intro o b ho hknown hbuffer
  have hdata := h.clusters.data (h.sector_lt ho)
  have hbyte := byte_counts hdata.1 hdata.2 (Nat.mod_lt o (by decide))
  have hcounts := data_counts hbyte.1 hbyte.2
  rw [hfat.outside _ hcounts.1 hcounts.2]
  exact h.stored o b ho hknown hbuffer

/-- An access that changes nothing for the file system. -/
theorem Holds.kept (h : Holds vol s fp chain known) (hkept : Kept vol.toGeometry s s') :
    Holds vol s' fp chain known :=
  h.fatOnly hkept.fatOnly (h.linked.congr fun c hc => hkept.entry (h.linked.2 c hc).2)

/-! The volume. -/

/-- The state of the volume between the calls, as a file with the clusters `chain` needs it.
Without failed requests no entry of the FAT is 1. -/
structure Mounted (faults : Faults) (vol : Volume) (s : FatFs) (chain : List Nat) : Prop where
  coherent : Coherent s
  clear : Clear vol s chain
  ones : Faulty faults ∨ NoOnes vol s

/-- An access to the file whose clusters were `chain` and are now `chain'`. -/
structure Progress (vol : Volume) (s s' : FatFs) (chain chain' : List Nat) : Prop where
  frame : Frame vol s s' chain
  grown : ∀ c ∈ chain', c ∈ chain ∨
    (2 ≤ c ∧ c < vol.nFatent) ∧ fatEntry vol.toGeometry s.view c = 0
  ones : NoOnes vol s → NoOnes vol s'

theorem Progress.refl (hc : Coherent s) (chain : List Nat) : Progress vol s s chain chain :=
  ⟨.refl hc chain, fun _ hc => .inl hc, id⟩

theorem Progress.trans (h : Progress vol s s' chain chain')
    (h' : Progress vol s' s'' chain' chain'') : Progress vol s s'' chain chain'' := by
  refine ⟨h.frame.trans h'.frame fun c hc => (h.grown c hc).imp_right And.right, ?_,
    fun hones => h'.ones (h.ones hones)⟩
  intro c hc
  rcases h'.grown c hc with hin | ⟨hrange, hfree⟩
  · exact h.grown c hin
  · by_cases hmem : c ∈ chain
    · exact .inl hmem
    · refine .inr ⟨hrange, ?_⟩
      by_contra hused
      exact hused ((h.frame.entries c hrange.1 hrange.2 hmem hused).symm.trans hfree)

theorem Progress.clear (h : Progress vol s s' chain chain') (hclear : Clear vol s chain) :
    Clear vol s' chain' :=
  h.frame.clear hclear fun c hc => (h.grown c hc).imp_right And.right

theorem Progress.mounted (h : Progress vol s s' chain chain') (hm : Mounted faults vol s chain) :
    Mounted faults vol s' chain' :=
  ⟨h.frame.coherent, h.clear hm.clear, hm.ones.imp_right h.ones⟩

/-- An access that leaves the FAT as it is. -/
theorem Frame.progress (h : Frame vol s s' chain) (hentries : ∀ c, c < vol.nFatent →
    fatEntry vol.toGeometry s'.view c = fatEntry vol.toGeometry s.view c) :
    Progress vol s s' chain chain :=
  ⟨h, fun _ hc => .inl hc, fun hones c hc hlt => by
    rw [hentries c hlt]
    exact hones c hc hlt⟩

theorem Kept.progress (h : Kept vol.toGeometry s s') (hstays : Stays vol s s')
    (chain : List Nat) : Progress vol s s' chain chain :=
  (h.frame hstays chain).progress fun _ hlt => h.entry hlt

/-! Places. -/

theorem csect_eq (vol : Volume) (fp : Fil) :
    fp.csect vol.toGeometry = fp.fptr / ss % vol.csize := by
  obtain ⟨j, hj, hcsize⟩ := vol.csize_pow
  have hle := vol.csize_le
  have hmod : fp.fptr / ss % vol.csize < vol.csize := Nat.mod_lt _ vol.csize_pos
  unfold Fil.csect
  rw [hcsize, Nat.and_two_pow_sub_one_eq_mod, ← hcsize]
  exact Nat.mod_eq_of_lt (by omega)

/-- Bytes of one sector. -/
theorem sector_same {a m : Nat} (hm : a % ss + m < ss) :
    (a + m) / ss = a / ss ∧ (a + m) % ss = a % ss + m := by
  unfold ss at hm ⊢
  omega

theorem sector_of_cluster {c : Nat} (hc : chain[k / vol.csize]? = some c) :
    k < chain.length * vol.csize := by
  obtain ⟨hlt, -⟩ := List.getElem?_eq_some_iff.mp hc
  exact (Nat.div_lt_iff_lt_mul vol.csize_pos).mp hlt

/-- The sector that the source computes from a cluster of the file. -/
theorem Holds.sect_eq (h : Holds vol s fp chain known) {c : Nat}
    (hc : chain[k / vol.csize]? = some c) :
    clust2sect vol.toGeometry c ≠ 0 ∧
      word (clust2sect vol.toGeometry c + k % vol.csize) = fileSect vol.toGeometry chain k := by
  have hrange := h.linked.2 c (List.mem_of_getElem? hc)
  have hdata := clust2sect_data hrange (Nat.mod_lt k vol.csize_pos)
  have hfirst := clust2sect_data hrange vol.csize_pos
  have hreserved := vol.reserved
  have hbelow := vol.fats_below
  have hwords := vol.data_fits
  refine ⟨by omega, ?_⟩
  rw [fileSect_eq hc]
  exact Nat.mod_eq_of_lt (by omega)

theorem pred_div_of_mod_ne {m n : Nat} (hmod : m % n ≠ 0) : (m - 1) / n = m / n := by
  obtain ⟨m, rfl⟩ := Nat.exists_eq_succ_of_ne_zero (show m ≠ 0 by rintro rfl; simp at hmod)
  rw [Nat.succ_div, if_neg (fun hdvd => hmod (Nat.mod_eq_zero_of_dvd hdvd)), Nat.add_zero]
  rfl

theorem pred_div_of_mod_eq {m n : Nat} (hpos : 0 < m) (hmod : m % n = 0) :
    (m - 1) / n = m / n - 1 := by
  obtain ⟨m, rfl⟩ := Nat.exists_eq_succ_of_ne_zero hpos.ne'
  rw [Nat.succ_div, if_pos (Nat.dvd_of_mod_eq_zero hmod)]
  rfl

/-- The current cluster at the start of a sector that is not the first of its cluster. -/
theorem FileInv.inside (h : FileInv vol s fp chain known) (hstart : fp.fptr % ss = 0)
    (hinside : fp.fptr / ss % vol.csize ≠ 0) :
    chain[fp.fptr / ss / vol.csize]? = some fp.clust := by
  have hpos : 0 < fp.fptr := by
    by_contra hzero
    rw [show fp.fptr = 0 by omega] at hinside
    simp at hinside
  have hcluster := h.cluster hpos
  rwa [pred_div_of_mod_eq hpos hstart, pred_div_of_mod_ne hinside] at hcluster

/-- The current cluster at the end of a cluster is the one that ends there. -/
theorem FileInv.boundary (h : FileInv vol s fp chain known) (hpos : 0 < fp.fptr)
    (hstart : fp.fptr % ss = 0) (hboundary : fp.fptr / ss % vol.csize = 0) :
    ∃ i, i + 1 = fp.fptr / ss / vol.csize ∧ chain[i]? = some fp.clust := by
  have hsector : 0 < fp.fptr / ss := by
    unfold ss at *
    omega
  have hindex : 0 < fp.fptr / ss / vol.csize :=
    Nat.div_pos (Nat.le_of_dvd hsector (Nat.dvd_of_mod_eq_zero hboundary)) vol.csize_pos
  have hcluster := h.cluster hpos
  rw [pred_div_of_mod_eq hpos hstart, pred_div_of_mod_eq hsector hboundary] at hcluster
  exact ⟨_, Nat.succ_pred_eq_of_pos hindex, hcluster⟩

/-! The buffer. -/

/-- What the accesses to the buffer leave alone. -/
structure Steady (fp fp' : Fil) : Prop where
  faRead : fp'.faRead = fp.faRead
  faWrite : fp'.faWrite = fp.faWrite
  err : fp'.err = fp.err
  fptr : fp'.fptr = fp.fptr
  fsize : fp'.fsize = fp.fsize
  sclust : fp'.sclust = fp.sclust

theorem Steady.refl (fp : Fil) : Steady fp fp := ⟨rfl, rfl, rfl, rfl, rfl, rfl⟩

/-- The sectors of the file behind the writing of the buffer. -/
theorem flushBuffer_data {r : FResult} (hcall : flushBuffer faults s fp = (s', fp', r))
    (hclusters : Clusters vol chain) (hsector : fp.dirty = true →
      ∃ k < chain.length * vol.csize, fp.dsect = fileSect vol.toGeometry chain k)
    (hc : Coherent s) (hclear : Clear vol s chain) :
    Frame vol s s' chain ∧ (∀ c, c < vol.nFatent →
      fatEntry vol.toGeometry s'.view c = fatEntry vol.toGeometry s.view c) ∧
      (r = .ok ∧ fp' = { fp with dirty := false } ∧
        (∀ k i, k < chain.length * vol.csize → i < ss →
          s'.view (ss * fileSect vol.toGeometry chain k + i) =
            if fp.dirty = true ∧ fp.dsect = fileSect vol.toGeometry chain k then fp.buf i
            else s.view (ss * fileSect vol.toGeometry chain k + i)) ∨
        r = .diskErr ∧ Faulty faults) := by
  unfold flushBuffer at hcall
  split at hcall
  next hdirty =>
    obtain ⟨k, hk, hsect⟩ := hsector hdirty
    have hdata := hclusters.data hk
    have hsects : ∀ j < 1, ∃ k < chain.length * vol.csize,
        fp.dsect + j = fileSect vol.toGeometry chain k := fun j hj => ⟨k, hk, by omega⟩
    have hframe := writeData_frame faults fp.buf hc hclear hclusters hsects
    have hentries : ∀ c, c < vol.nFatent → _ :=
      fun c hlt => writeData_entry faults s fp.buf hclusters hsects hlt
    dsimp only at hcall
    split at hcall
    next hfailed =>
      cases hcall
      exact ⟨hframe, hentries, .inr ⟨rfl, diskWrite_failed (by simpa using hfailed)⟩⟩
    next hwritten =>
      have hdone : (diskWrite faults s.drive fp.buf fp.dsect 1).2 = true := by
        simpa using hwritten
      cases hcall
      refine ⟨hframe, hentries, .inl ⟨rfl, rfl, ?_⟩⟩
      intro k' i _ hi
      split
      next hhere =>
        rw [← hhere.2]
        exact writeData_inside hclear hclusters hsects hdone (by omega)
      next hother =>
        have hne : fp.dsect ≠ fileSect vol.toGeometry chain k' := fun heq => hother ⟨hdirty, heq⟩
        rw [writeData_outside (byte_apart (by omega) hi)]
  next hclean =>
    cases hcall
    have hsame : fp = { fp with dirty := false } := by
      cases fp
      simp_all
    refine ⟨.refl hc chain, fun _ _ => rfl, .inl ⟨rfl, hsame, ?_⟩⟩
    intro k i _ _
    rw [if_neg fun hdirty => hclean hdirty.1]

theorem flushBuffer_spec {r : FResult} (h : Holds vol s fp chain known) (hc : Coherent s)
    (hclear : Clear vol s chain) (hcall : flushBuffer faults s fp = (s', fp', r)) :
    Progress vol s s' chain chain ∧ (r = .ok ∧ fp' = { fp with dirty := false } ∧
      Holds vol s' { fp with dirty := false } chain known ∨ r = .diskErr ∧ Faulty faults) := by
  obtain ⟨hframe, hentries, hr⟩ := flushBuffer_data hcall h.clusters h.dirty hc hclear
  refine ⟨hframe.progress hentries, hr.imp_left ?_⟩
  rintro ⟨rfl, rfl, hview⟩
  refine ⟨rfl, rfl, h.linked.congr fun c hcm => hentries c (h.linked.2 c hcm).2, h.nodup, h.start,
    h.room, h.limit, fun hdirty => (by cases hdirty), h.buffered, ?_⟩
  intro o b ho hknown _
  rw [hview _ _ (h.sector_lt ho) (Nat.mod_lt o (by decide))]
  split
  next hhere => exact h.buffered o b ho hknown hhere.2
  next hother => exact h.stored o b ho hknown fun hdirty heq => hother ⟨hdirty, heq⟩

/-- A sector of the file, read past the window. -/
theorem Holds.diskRead (h : Holds vol s fp chain known) (hclear : Clear vol s chain)
    (hk : k < chain.length * vol.csize) {i : Nat} (hi : i < ss) :
    s.drive.mem (ss * fileSect vol.toGeometry chain k + i) =
      s.view (ss * fileSect vol.toGeometry chain k + i) :=
  (hclear.view h.clusters hk hi).symm

/-- A request that only reads. -/
theorem diskRead_kept (faults : Faults) (sect : Nat) (hc : Coherent s) :
    Kept vol.toGeometry s { s with drive := (Fs.diskRead faults s.drive sect).1 } := by
  have hmem := diskRead_mem faults s.drive sect
  refine ⟨⟨?_, hc.valid⟩, ?_, rfl, rfl, rfl⟩
  · dsimp only
    rw [hmem]
    exact hc.clean
  · intro x _
    unfold FatFs.view
    dsimp only
    rw [hmem]

/-- A buffer without changes takes another sector of the file. -/
theorem fillBuffer_spec {r : FResult} (h : Holds vol s fp chain known) (hclean : fp.dirty = false)
    (hc : Coherent s) (hclear : Clear vol s chain) (hk : k < chain.length * vol.csize)
    (hcall : fillBuffer faults s fp (fileSect vol.toGeometry chain k) = (s', fp', r)) :
    Progress vol s s' chain chain ∧ (r = .ok ∧ (∃ buf, fp' = { fp with buf := buf }) ∧
      Holds vol s' { fp' with dsect := fileSect vol.toGeometry chain k } chain known ∨
        r = .diskErr ∧ Faulty faults) := by
  unfold fillBuffer at hcall
  dsimp only at hcall
  have hkept : Kept vol.toGeometry s _ :=
    diskRead_kept faults (fileSect vol.toGeometry chain k) hc
  obtain ⟨rfl, hrest⟩ := Prod.mk.inj hcall
  obtain ⟨rfl, rfl⟩ := Prod.mk.inj hrest
  refine ⟨hkept.progress (.inl rfl) chain, ?_⟩
  split
  next hdone =>
    have hother := h.kept hkept
    refine .inl ⟨rfl, ⟨_, rfl⟩, hother.linked, h.nodup, h.start, h.room, h.limit, ?_, ?_, ?_⟩
    · intro hdirty
      cases hclean.symm.trans hdirty
    · intro o b ho hknown hhere
      have hmod : o % ss < ss := Nat.mod_lt _ (by decide)
      have hstored := h.stored o b ho hknown fun hdirty => by cases hclean.symm.trans hdirty
      dsimp only at hhere ⊢
      rw [diskRead_done hdone, load, h.diskRead hclear hk hmod, hhere]
      exact hstored
    · intro o b ho hknown _
      exact hother.stored o b ho hknown fun hdirty => by cases hclean.symm.trans hdirty
  next hfailed => exact .inr ⟨rfl, diskRead_failed hfailed⟩

theorem loadSector_spec {r : FResult} (h : Holds vol s fp chain known) (hc : Coherent s)
    (hclear : Clear vol s chain) (hk : k < chain.length * vol.csize)
    (hcall : loadSector faults s fp (fileSect vol.toGeometry chain k) = (s', fp', r)) :
    Progress vol s s' chain chain ∧ (r = .ok ∧ Holds vol s' fp' chain known ∧ Steady fp fp' ∧
      fp'.clust = fp.clust ∧ fp'.dsect = fileSect vol.toGeometry chain k ∨
        r = .diskErr ∧ Faulty faults) := by
  unfold loadSector at hcall
  split at hcall
  next =>
    obtain ⟨s₁, fp₁, r₁, hflush⟩ : ∃ s₁ fp₁ r₁, flushBuffer faults s fp = (s₁, fp₁, r₁) :=
      ⟨_, _, _, rfl⟩
    rw [hflush] at hcall
    dsimp only at hcall
    obtain ⟨hprogress, ⟨rfl, rfl, hholds⟩ | ⟨rfl, hfaulty⟩⟩ := flushBuffer_spec h hc hclear hflush
    · rw [if_neg (by simp)] at hcall
      obtain ⟨s₂, fp₂, r₂, hfill⟩ : ∃ s₂ fp₂ r₂, fillBuffer faults s₁ { fp with dirty := false }
        (fileSect vol.toGeometry chain k) = (s₂, fp₂, r₂) := ⟨_, _, _, rfl⟩
      rw [hfill] at hcall
      dsimp only at hcall
      obtain ⟨hprogress', hr⟩ := fillBuffer_spec hholds rfl hprogress.frame.coherent
        (hprogress.clear hclear) hk hfill
      have hboth := hprogress.trans hprogress'
      rcases hr with ⟨rfl, ⟨buf, rfl⟩, hholds'⟩ | ⟨rfl, hfaulty⟩
      · rw [if_neg (by simp)] at hcall
        cases hcall
        exact ⟨hboth, .inl ⟨rfl, hholds', ⟨rfl, rfl, rfl, rfl, rfl, rfl⟩, rfl, rfl⟩⟩
      · rw [if_pos (by simp)] at hcall
        cases hcall
        exact ⟨hboth, .inr ⟨rfl, hfaulty⟩⟩
    · rw [if_pos (by simp)] at hcall
      cases hcall
      exact ⟨hprogress, .inr ⟨rfl, hfaulty⟩⟩
  next hthere =>
    have hsame : { fp with dsect := fileSect vol.toGeometry chain k } = fp := by
      rw [← not_not.mp hthere]
    rw [hsame] at hcall
    cases hcall
    exact ⟨.refl hc chain, .inl ⟨rfl, h, .refl fp, rfl, not_not.mp hthere⟩⟩

end PosixRtos.Fs
