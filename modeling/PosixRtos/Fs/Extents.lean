import PosixRtos.Fs.File

/-! Where the bytes of a file lie, and what an access to one file leaves alone. -/
namespace PosixRtos.Fs

open PosixRtos.Library.ByteMemory PosixRtos.Library.Overlay PosixRtos.Library.Chains
open PosixRtos.Heap (word sub32)

/-- Sector `k` of the file whose clusters are `chain`. -/
def fileSect (g : Geometry) (chain : List Nat) (k : Nat) : Nat :=
  clust2sect g (chain.getD (k / g.csize) 0) + k % g.csize

variable {faults : Faults} {vol : Volume} {s s' : FatFs} {chain chain' : List Nat}
variable {c c' j j' k k' : Nat}

/-! Sectors of clusters. -/

theorem lt_clusters (hc : 2 ≤ c ∧ c < vol.nFatent) (hj : j < vol.csize) :
    (c - 2) * vol.csize + j < (vol.nFatent - 2) * vol.csize := by
  have hle : (c - 2 + 1) * vol.csize ≤ (vol.nFatent - 2) * vol.csize :=
    Nat.mul_le_mul_right _ (by omega)
  rw [Nat.succ_mul] at hle
  omega

/-- The sectors of a cluster are data. -/
theorem clust2sect_data (hc : 2 ≤ c ∧ c < vol.nFatent) (hj : j < vol.csize) :
    vol.database ≤ clust2sect vol.toGeometry c + j ∧
      clust2sect vol.toGeometry c + j < vol.database + (vol.nFatent - 2) * vol.csize := by
  have hlt := lt_clusters hc hj
  rw [clust2sect_eq hc.1 hc.2]
  omega

theorem clust2sect_inj (hc : 2 ≤ c ∧ c < vol.nFatent) (hj : j < vol.csize)
    (hc' : 2 ≤ c' ∧ c' < vol.nFatent) (hj' : j' < vol.csize)
    (heq : clust2sect vol.toGeometry c + j = clust2sect vol.toGeometry c' + j') :
    c = c' ∧ j = j' := by
  rw [clust2sect_eq hc.1 hc.2, clust2sect_eq hc'.1 hc'.2] at heq
  have hsum : j + vol.csize * (c - 2) = j' + vol.csize * (c' - 2) := by
    rw [Nat.mul_comm vol.csize, Nat.mul_comm vol.csize]
    omega
  have hdiv := congrArg (· / vol.csize) hsum
  simp only [Nat.add_mul_div_left _ _ vol.csize_pos, Nat.div_eq_of_lt hj,
    Nat.div_eq_of_lt hj'] at hdiv
  have hcc : c = c' := by omega
  subst hcc
  exact ⟨rfl, by omega⟩

/-! Sectors of files. -/

/-- The clusters are different ones of the volume. -/
structure Clusters (vol : Volume) (chain : List Nat) : Prop where
  range : ∀ c ∈ chain, 2 ≤ c ∧ c < vol.nFatent
  nodup : chain.Nodup

theorem exists_cluster (hk : k < chain.length * vol.csize) :
    ∃ c, chain[k / vol.csize]? = some c := by
  have hlt : k / vol.csize < chain.length := Nat.div_lt_of_lt_mul (by rwa [Nat.mul_comm])
  exact ⟨_, List.getElem?_eq_getElem hlt⟩

theorem fileSect_eq (hc : chain[k / vol.csize]? = some c) :
    fileSect vol.toGeometry chain k = clust2sect vol.toGeometry c + k % vol.csize := by
  unfold fileSect
  rw [List.getD_eq_getElem?_getD, hc, Option.getD_some]

theorem Clusters.data (h : Clusters vol chain) (hk : k < chain.length * vol.csize) :
    vol.database ≤ fileSect vol.toGeometry chain k ∧
      fileSect vol.toGeometry chain k < vol.database + (vol.nFatent - 2) * vol.csize := by
  obtain ⟨c, hc⟩ := exists_cluster hk
  rw [fileSect_eq hc]
  exact clust2sect_data (h.range c (List.mem_of_getElem? hc)) (Nat.mod_lt _ vol.csize_pos)

theorem Clusters.inj (h : Clusters vol chain) (hk : k < chain.length * vol.csize)
    (hk' : k' < chain.length * vol.csize)
    (heq : fileSect vol.toGeometry chain k = fileSect vol.toGeometry chain k') : k = k' := by
  obtain ⟨c, hc⟩ := exists_cluster hk
  obtain ⟨c', hc'⟩ := exists_cluster hk'
  rw [fileSect_eq hc, fileSect_eq hc'] at heq
  obtain ⟨rfl, hmod⟩ := clust2sect_inj (h.range c (List.mem_of_getElem? hc))
    (Nat.mod_lt _ vol.csize_pos) (h.range c' (List.mem_of_getElem? hc'))
    (Nat.mod_lt _ vol.csize_pos) heq
  obtain ⟨hi, hci⟩ := List.getElem?_eq_some_iff.mp hc
  obtain ⟨hi', hci'⟩ := List.getElem?_eq_some_iff.mp hc'
  have hdiv := (h.nodup.getElem_inj_iff).mp (hci.trans hci'.symm)
  rw [← Nat.div_add_mod k vol.csize, ← Nat.div_add_mod k' vol.csize, hdiv, hmod]

/-- No sector of another cluster is one of the file's. -/
theorem Clusters.apart (h : Clusters vol chain) (hk : k < chain.length * vol.csize)
    (hc : 2 ≤ c ∧ c < vol.nFatent) (hmem : c ∉ chain) (hj : j < vol.csize) :
    clust2sect vol.toGeometry c + j ≠ fileSect vol.toGeometry chain k := by
  intro heq
  obtain ⟨c', hc'⟩ := exists_cluster hk
  rw [fileSect_eq hc'] at heq
  obtain ⟨rfl, -⟩ := clust2sect_inj hc hj (h.range c' (List.mem_of_getElem? hc'))
    (Nat.mod_lt _ vol.csize_pos) heq
  exact hmem (List.mem_of_getElem? hc')

theorem div_add_inside {m n : Nat} (hj : m % n + j < n) : (m + j) / n = m / n := by
  have hm := Nat.div_add_mod m n
  rw [← hm, Nat.add_assoc, Nat.mul_add_div (by omega), Nat.div_eq_of_lt hj, Nat.add_zero, hm]

/-- Within a cluster the sectors of the file follow each other. -/
theorem fileSect_add (g : Geometry) (chain : List Nat) (hj : k % g.csize + j < g.csize) :
    fileSect g chain (k + j) = fileSect g chain k + j := by
  have hdiv := div_add_inside hj
  have hmod : (k + j) % g.csize = k % g.csize + j := by
    have hk := Nat.div_add_mod k g.csize
    have hsum := Nat.div_add_mod (k + j) g.csize
    rw [hdiv] at hsum
    omega
  unfold fileSect
  rw [hdiv, hmod, Nat.add_assoc]

theorem Clusters.run (h : Clusters vol chain) (hk : k < chain.length * vol.csize) {m : Nat}
    (hm : 0 < m) (hinside : k % vol.csize + m ≤ vol.csize) :
    (∀ j < m, k + j < chain.length * vol.csize ∧ fileSect vol.toGeometry chain (k + j) =
      fileSect vol.toGeometry chain k + j) ∧ fileSect vol.toGeometry chain k + m ≤
        vol.database + (vol.nFatent - 2) * vol.csize := by
  have hall : ∀ j < m, k + j < chain.length * vol.csize ∧
      fileSect vol.toGeometry chain (k + j) = fileSect vol.toGeometry chain k + j := by
    intro j hj
    refine ⟨?_, fileSect_add _ _ (by omega)⟩
    rw [← Nat.div_lt_iff_lt_mul vol.csize_pos] at hk ⊢
    rwa [div_add_inside (by omega)]
  refine ⟨hall, ?_⟩
  obtain ⟨hlast, heq⟩ := hall (m - 1) (by omega)
  have hdata := (h.data hlast).2
  omega

/-- The other sectors of the file lie outside of a run of sectors. -/
theorem Clusters.outside_run (h : Clusters vol chain) (hk : k < chain.length * vol.csize) {m : Nat}
    (hm : 0 < m) (hinside : k % vol.csize + m ≤ vol.csize) (hk' : k' < chain.length * vol.csize)
    (hout : k' < k ∨ k + m ≤ k') :
    fileSect vol.toGeometry chain k' < fileSect vol.toGeometry chain k ∨
      fileSect vol.toGeometry chain k + m ≤ fileSect vol.toGeometry chain k' := by
  obtain ⟨hall, -⟩ := h.run hk hm hinside
  by_contra hin
  obtain ⟨j, hj⟩ := Nat.exists_eq_add_of_le
    (show fileSect vol.toGeometry chain k ≤ fileSect vol.toGeometry chain k' by omega)
  have hjm : j < m := by omega
  rw [← (hall j hjm).2] at hj
  have hsame := h.inj hk' (hall j hjm).1 hj
  omega

/-- Clusters that are appended come behind the sectors that there are. -/
theorem fileSect_append (g : Geometry) (chain' : List Nat) (hk : k < chain.length * g.csize) :
    fileSect g (chain ++ chain') k = fileSect g chain k := by
  have hlt : k / g.csize < chain.length := Nat.div_lt_of_lt_mul (by rwa [Nat.mul_comm])
  unfold fileSect
  rw [List.getD_eq_getElem?_getD, List.getD_eq_getElem?_getD, List.getElem?_append_left hlt]

/-! The window. -/

/-- `sect` is no sector of the clusters `chain` and none of a free cluster. -/
def Apart (vol : Volume) (s : FatFs) (chain : List Nat) (sect : Nat) : Prop :=
  ∀ c j, 2 ≤ c → c < vol.nFatent → (c ∈ chain ∨ fatEntry vol.toGeometry s.view c = 0) →
    j < vol.csize → sect ≠ clust2sect vol.toGeometry c + j

/-- The window shows none of these sectors. -/
def Clear (vol : Volume) (s : FatFs) (chain : List Nat) : Prop := Apart vol s chain s.winsect

/-- The window has stayed where it was, or it has gone to a sector in front of the clusters. -/
def Stays (vol : Volume) (s s' : FatFs) : Prop :=
  s'.winsect = s.winsect ∨ s'.winsect < vol.database ∨ s'.winsect = noSector

theorem Stays.refl (vol : Volume) (s : FatFs) : Stays vol s s := .inl rfl

theorem Stays.trans {s'' : FatFs} (h : Stays vol s s') (h' : Stays vol s' s'') :
    Stays vol s s'' := by
  unfold Stays at *
  rcases h' with hsame | hfront
  · rw [hsame]
    exact h
  · exact .inr hfront

theorem Volume.data_below (vol : Volume) :
    vol.database + (vol.nFatent - 2) * vol.csize ≤ noSector := by
  have hdata := vol.data_fits
  unfold noSector
  omega

/-- In front of the clusters there are none of their sectors. -/
theorem Apart.front {sect : Nat} (h : sect < vol.database ∨ sect = noSector) (s : FatFs)
    (chain : List Nat) : Apart vol s chain sect := by
  intro c j hc hlt _ hj heq
  have hdata := clust2sect_data ⟨hc, hlt⟩ hj
  have hbelow := vol.data_below
  omega

/-- The clusters are ones that have been in question before. -/
theorem Apart.moved {sect : Nat} (h : Apart vol s chain sect)
    (hold : ∀ c, 2 ≤ c → c < vol.nFatent → c ∈ chain' ∨ fatEntry vol.toGeometry s'.view c = 0 →
      c ∈ chain ∨ fatEntry vol.toGeometry s.view c = 0) : Apart vol s' chain' sect :=
  fun c j hc hlt hmem hj => h c j hc hlt (hold c hc hlt hmem) hj

theorem Clear.moved (h : Clear vol s chain) (hstays : Stays vol s s')
    (hold : ∀ c, 2 ≤ c → c < vol.nFatent → c ∈ chain' ∨ fatEntry vol.toGeometry s'.view c = 0 →
      c ∈ chain ∨ fatEntry vol.toGeometry s.view c = 0) : Clear vol s' chain' := by
  unfold Clear
  rcases hstays with hsame | hfront
  · rw [hsame]
    exact Apart.moved h hold
  · exact .front hfront s' chain'

theorem Clear.sector (h : Clear vol s chain) (hclusters : Clusters vol chain)
    (hk : k < chain.length * vol.csize) : s.winsect ≠ fileSect vol.toGeometry chain k := by
  obtain ⟨c, hc⟩ := exists_cluster hk
  have hmem := List.mem_of_getElem? hc
  obtain ⟨htwo, hlt⟩ := hclusters.range c hmem
  rw [fileSect_eq hc]
  exact h c _ htwo hlt (.inl hmem) (Nat.mod_lt _ vol.csize_pos)

theorem view_outside {sector i : Nat} (hne : s.winsect ≠ sector) (hi : i < ss) :
    s.view (ss * sector + i) = s.drive.mem (ss * sector + i) := by
  apply overlay_outside
  unfold ss at *
  omega

/-- The sectors of the file are seen as they are on the medium. -/
theorem Clear.view {i : Nat} (h : Clear vol s chain) (hclusters : Clusters vol chain)
    (hk : k < chain.length * vol.csize) (hi : i < ss) :
    s.view (ss * fileSect vol.toGeometry chain k + i) =
      s.drive.mem (ss * fileSect vol.toGeometry chain k + i) :=
  view_outside (h.sector hclusters hk) hi

theorem syncWindow_winsect (faults : Faults) (s : FatFs) :
    (syncWindow faults vol.toGeometry s).1.winsect = s.winsect := by
  unfold syncWindow
  dsimp only
  split
  · split
    · rfl
    · split <;> rfl
  · rfl

theorem moveWindow_stays (faults : Faults) (s : FatFs) {sector : Nat}
    (hsector : sector < vol.database) :
    Stays vol s (moveWindow faults vol.toGeometry s sector).1 := by
  unfold moveWindow
  split
  · exact .refl vol s
  · dsimp only
    split
    · split
      · exact .inr (.inl hsector)
      · exact .inr (.inr rfl)
    · exact .inl (syncWindow_winsect faults s)

theorem fatSector_lt {b : Nat} (hb : b < ss * vol.fsize) :
    word (vol.fatbase + b / ss) < vol.database := by
  have hdiv : b / ss < vol.fsize := Nat.div_lt_of_lt_mul hb
  have hbelow := vol.fats_below
  have hword : word (vol.fatbase + b / ss) ≤ vol.fatbase + b / ss := Nat.mod_le _ _
  have hone := vol.one_fat
  omega

/-- The sectors that `get_fat` and `put_fat` move the window to. -/
theorem entrySector_lt (vol : Volume) (hlt : c < vol.nFatent) :
    (vol.fsType = .fat12 → word (vol.fatbase + (c + c / 2) / ss) < vol.database ∧
      word (vol.fatbase + (c + c / 2 + 1) / ss) < vol.database) ∧
    (vol.fsType = .fat16 → word (vol.fatbase + c / (ss / 2)) < vol.database) ∧
    (vol.fsType = .fat32 → word (vol.fatbase + c / (ss / 4)) < vol.database) := by
  have hfits := vol.fat_fits
  refine ⟨fun htype => ?_, fun htype => ?_, fun htype => ?_⟩
  all_goals
    rw [htype] at hfits
    unfold fatBytes at hfits
    dsimp only at hfits
  · exact ⟨fatSector_lt (by omega), fatSector_lt (by omega)⟩
  · have hsector : c / (ss / 2) = 2 * c / ss := by unfold ss; omega
    rw [hsector]
    exact fatSector_lt (by omega)
  · have hsector : c / (ss / 4) = 4 * c / ss := by unfold ss; omega
    rw [hsector]
    exact fatSector_lt (by omega)

theorem getFat_stays (faults : Faults) (vol : Volume) (s : FatFs) (clst : Nat) :
    Stays vol s (getFat faults vol.toGeometry s clst).1 := by
  unfold getFat
  split
  · exact .refl vol s
  next hrange =>
    obtain ⟨h12, h16, h32⟩ := entrySector_lt vol (c := clst) (by omega)
    split
    next htype =>
      have hfirst := moveWindow_stays faults s (h12 htype).1
      dsimp only
      split
      · exact hfirst
      · have hsecond := hfirst.trans (moveWindow_stays faults _ (h12 htype).2)
        split <;> exact hsecond
    next htype =>
      have hmove := moveWindow_stays faults s (h16 htype)
      dsimp only
      split <;> exact hmove
    next htype =>
      have hmove := moveWindow_stays faults s (h32 htype)
      dsimp only
      split <;> exact hmove

/-- A call that succeeds leaves the window in the FAT. -/
theorem getFat_front {v : Nat} (hc : Coherent s) (hrange : 2 ≤ c ∧ c < vol.nFatent)
    (hcall : getFat faults vol.toGeometry s c = (s', v)) (hv : v ≠ diskError) :
    s'.winsect < vol.database := by
  have hthere : ∀ {t t' : FatFs} {sector : Nat} {r : FResult}, Coherent t →
      sector < vol.database → moveWindow faults vol.toGeometry t sector = (t', r) →
      Coherent t' ∧ (¬ r ≠ .ok → t'.winsect < vol.database) := by
    intro t t' sector r ht hsector hmove
    obtain ⟨hkept, ⟨-, heq⟩ | ⟨rfl, -⟩⟩ := moveWindow_spec ht hmove
    · exact ⟨hkept.coherent, fun _ => heq ▸ hsector⟩
    · exact ⟨hkept.coherent, fun hok => absurd (by decide) hok⟩
  obtain ⟨h12, h16, h32⟩ := entrySector_lt vol hrange.2
  unfold getFat at hcall
  rw [if_neg (by omega)] at hcall
  split at hcall
  next htype =>
    obtain ⟨hcoherent, -⟩ := hthere hc (h12 htype).1 rfl
    obtain ⟨-, hfront⟩ := hthere hcoherent (h12 htype).2 rfl
    dsimp only at hcall
    split at hcall
    next =>
      obtain ⟨-, rfl⟩ := Prod.mk.inj hcall
      exact absurd rfl hv
    next =>
      split at hcall
      next =>
        obtain ⟨-, rfl⟩ := Prod.mk.inj hcall
        exact absurd rfl hv
      next hok =>
        obtain ⟨rfl, -⟩ := Prod.mk.inj hcall
        exact hfront hok
  next htype =>
    obtain ⟨-, hfront⟩ := hthere hc (h16 htype) rfl
    dsimp only at hcall
    split at hcall
    next =>
      obtain ⟨-, rfl⟩ := Prod.mk.inj hcall
      exact absurd rfl hv
    next hok =>
      obtain ⟨rfl, -⟩ := Prod.mk.inj hcall
      exact hfront hok
  next htype =>
    obtain ⟨-, hfront⟩ := hthere hc (h32 htype) rfl
    dsimp only at hcall
    split at hcall
    next =>
      obtain ⟨-, rfl⟩ := Prod.mk.inj hcall
      exact absurd rfl hv
    next hok =>
      obtain ⟨rfl, -⟩ := Prod.mk.inj hcall
      exact hfront hok

theorem putFat_stays (faults : Faults) (vol : Volume) (s : FatFs) (clst val : Nat) :
    Stays vol s (putFat faults vol.toGeometry s clst val).1 := by
  unfold putFat
  split
  · exact .refl vol s
  next hrange =>
    obtain ⟨h12, h16, h32⟩ := entrySector_lt vol (c := clst) (by omega)
    split
    next htype =>
      have hfirst := moveWindow_stays faults s (h12 htype).1
      dsimp only
      split
      · exact hfirst
      · generalize hput : (moveWindow faults vol.toGeometry s _).1.put _ _ = t
        have hstays : Stays vol s t := by
          rw [← hput]
          exact hfirst
        have hsecond := hstays.trans (moveWindow_stays faults _ (h12 htype).2)
        split <;> exact hsecond
    next htype =>
      have hmove := moveWindow_stays faults s (h16 htype)
      dsimp only
      split <;> exact hmove
    next htype =>
      have hmove := moveWindow_stays faults s (h32 htype)
      dsimp only
      split <;> exact hmove

/-- `create_chain` and `remove_chain` move the window to the FAT only. -/
theorem stays_stable (faults : Faults) (vol : Volume) (s : FatFs) :
    FatStable faults vol (Stays vol s) where
  get s' clst h := h.trans (getFat_stays faults vol s' clst)
  put s' clst val _ h := h.trans (putFat_stays faults vol s' clst val)
  count _ _ _ _ h := h

theorem createChain_stays {clst v : Nat}
    (hcall : createChain faults vol.toGeometry s clst = some (s', v)) : Stays vol s s' :=
  (stays_stable faults vol s).createChain (.refl vol s) hcall

theorem removeChain_stays {clst : Nat} {r : FResult}
    (hcall : removeChain faults vol.toGeometry s clst = some (s', r)) : Stays vol s s' :=
  (stays_stable faults vol s).removeChain (.refl vol s) hcall

/-! What an access to a file leaves alone. -/

/-- An access to the clusters `chain`: the FAT entries and the bytes of all other clusters that
are not free are as before, and so is everything up to the boot sector of the volume. -/
structure Elsewhere (vol : Volume) (s s' : FatFs) (chain : List Nat) : Prop where
  coherent : Coherent s'
  entries : ∀ c, 2 ≤ c → c < vol.nFatent → c ∉ chain → fatEntry vol.toGeometry s.view c ≠ 0 →
    fatEntry vol.toGeometry s'.view c = fatEntry vol.toGeometry s.view c
  data : ∀ c j i, 2 ≤ c → c < vol.nFatent → c ∉ chain → fatEntry vol.toGeometry s.view c ≠ 0 →
    j < vol.csize → i < ss → s'.view (ss * (clust2sect vol.toGeometry c + j) + i) =
      s.view (ss * (clust2sect vol.toGeometry c + j) + i)
  boot : ∀ x < ss * (vol.volbase + 1), s'.view x = s.view x

/-- An access to a file, which does not take the window to another cluster. -/
structure Frame (vol : Volume) (s s' : FatFs) (chain : List Nat) : Prop
    extends Elsewhere vol s s' chain where
  stays : Stays vol s s'

theorem Elsewhere.refl (hc : Coherent s) (chain : List Nat) : Elsewhere vol s s chain :=
  ⟨hc, fun _ _ _ _ _ => rfl, fun _ _ _ _ _ _ _ _ _ => rfl, fun _ _ => rfl⟩

theorem Frame.refl (hc : Coherent s) (chain : List Nat) : Frame vol s s chain :=
  ⟨.refl hc chain, .refl vol s⟩

/-- Clusters that have been got in between were free. -/
theorem Elsewhere.trans {s'' : FatFs} (h : Elsewhere vol s s' chain)
    (h' : Elsewhere vol s' s'' chain')
    (hgrown : ∀ c ∈ chain', c ∈ chain ∨ fatEntry vol.toGeometry s.view c = 0) :
    Elsewhere vol s s'' chain := by
  have hnotin : ∀ c, c ∉ chain → fatEntry vol.toGeometry s.view c ≠ 0 → c ∉ chain' :=
    fun c hmem hused hin => (hgrown c hin).elim hmem hused
  refine ⟨h'.coherent, ?_, ?_, ?_⟩
  · intro c hc hlt hmem hused
    have hsame := h.entries c hc hlt hmem hused
    rw [h'.entries c hc hlt (hnotin c hmem hused) (by rwa [hsame]), hsame]
  · intro c j i hc hlt hmem hused hj hi
    have hsame := h.entries c hc hlt hmem hused
    rw [h'.data c j i hc hlt (hnotin c hmem hused) (by rwa [hsame]) hj hi,
      h.data c j i hc hlt hmem hused hj hi]
  · intro x hx
    rw [h'.boot x hx, h.boot x hx]

theorem Frame.trans {s'' : FatFs} (h : Frame vol s s' chain) (h' : Frame vol s' s'' chain')
    (hgrown : ∀ c ∈ chain', c ∈ chain ∨ fatEntry vol.toGeometry s.view c = 0) :
    Frame vol s s'' chain :=
  ⟨h.toElsewhere.trans h'.toElsewhere hgrown, h.stays.trans h'.stays⟩

/-- A cluster that is free afterwards was free or one of those. -/
theorem Elsewhere.free (h : Elsewhere vol s s' chain) (hc : 2 ≤ c) (hlt : c < vol.nFatent)
    (hfree : fatEntry vol.toGeometry s'.view c = 0) :
    c ∈ chain ∨ fatEntry vol.toGeometry s.view c = 0 := by
  by_contra hused
  rw [not_or] at hused
  exact hused.2 ((h.entries c hc hlt hused.1 hused.2).symm.trans hfree)

/-- The window is clear of the clusters that the file has then. -/
theorem Frame.clear (h : Frame vol s s' chain) (hclear : Clear vol s chain)
    (hgrown : ∀ c ∈ chain', c ∈ chain ∨ fatEntry vol.toGeometry s.view c = 0) :
    Clear vol s' chain' := by
  apply hclear.moved h.stays
  rintro c hc hlt (hmem | hfree)
  · exact hgrown c hmem
  · exact h.free hc hlt hfree

/-- The bytes of the clusters are no part of the FAT. -/
theorem data_counts {x : Nat} (hx : ss * vol.database ≤ x) (hlt : x < ss * noSector) :
    vol.Counts x ∧ ¬ vol.FatArea x := by
  have hfats : ss * (vol.fatbase + vol.nFats * vol.fsize) ≤ ss * vol.database :=
    Nat.mul_le_mul_left _ vol.fats_below
  have hfat : ss * (vol.fatbase + vol.fsize) ≤ ss * (vol.fatbase + vol.nFats * vol.fsize) :=
    Nat.mul_le_mul_left _ vol.one_fat
  refine ⟨⟨hlt, ?_⟩, ?_⟩
  · unfold Geometry.Mirror
    omega
  · unfold Geometry.FatArea
    omega

/-- Neither is the boot sector, or what lies in front of it. -/
theorem boot_counts {x : Nat} (hx : x < ss * (vol.volbase + 1)) :
    vol.Counts x ∧ ¬ vol.FatArea x := by
  have hreserved := vol.reserved
  have hbelow := vol.fats_below
  have hdata := vol.data_fits
  refine ⟨⟨?_, ?_⟩, ?_⟩
  · unfold noSector ss at *
    omega
  · unfold Geometry.Mirror ss at *
    omega
  · unfold Geometry.FatArea ss at *
    omega

theorem fatArea_below {x : Nat} (hx : vol.FatArea x) : x < ss * vol.database := by
  by_contra hge
  exact (data_counts (by omega) (fatArea_counts hx).1).2 hx

theorem byte_counts {sector i : Nat} (hsector : vol.database ≤ sector)
    (hlt : sector < vol.database + (vol.nFatent - 2) * vol.csize) (hi : i < ss) :
    ss * vol.database ≤ ss * sector + i ∧ ss * sector + i < ss * noSector := by
  have hlow : ss * vol.database ≤ ss * sector := Nat.mul_le_mul_left _ hsector
  have hhigh : ss * (sector + 1) ≤ ss * noSector :=
    Nat.mul_le_mul_left _ (by have := vol.data_below; omega)
  rw [Nat.mul_succ] at hhigh
  omega

/-- A change of the FAT that is limited to some clusters. -/
theorem Limited.elsewhere {cs : List Nat} (h : Limited vol s s' cs)
    (hcs : ∀ c ∈ cs, c ∈ chain ∨ c < 2) : Elsewhere vol s s' chain := by
  refine ⟨h.coherent, ?_, ?_, fun x hx => h.outside x (boot_counts hx).1 (boot_counts hx).2⟩
  · intro c hc hlt hmem hused
    apply h.others c hc hlt _ hused
    intro hin
    rcases hcs c hin with hin | hsmall
    · exact hmem hin
    · omega
  · intro c j i hc hlt _ _ hj hi
    have hdata := clust2sect_data ⟨hc, hlt⟩ hj
    have hbyte := byte_counts hdata.1 hdata.2 hi
    have hcounts := data_counts hbyte.1 hbyte.2
    exact h.outside _ hcounts.1 hcounts.2

theorem Limited.frame {cs : List Nat} (h : Limited vol s s' cs) (hstays : Stays vol s s')
    (hcs : ∀ c ∈ cs, c ∈ chain ∨ c < 2) : Frame vol s s' chain :=
  ⟨h.elsewhere hcs, hstays⟩

theorem Kept.frame (h : Kept vol.toGeometry s s') (hstays : Stays vol s s') (chain : List Nat) :
    Frame vol s s' chain :=
  (h.limited []).frame hstays fun _ hc => by cases hc

theorem Clear.kept (h : Clear vol s chain) (hkept : Kept vol.toGeometry s s')
    (hstays : Stays vol s s') : Clear vol s' chain :=
  (hkept.frame hstays chain).clear h fun _ hc => .inl hc

/-- The bytes of a sector lie outside of other sectors. -/
theorem byte_apart {sector sector' count i : Nat}
    (hsector : sector' < sector ∨ sector + count ≤ sector') (hi : i < ss) :
    ss * sector' + i < ss * sector ∨ ss * sector + ss * count ≤ ss * sector' + i := by
  rcases hsector with hbelow | habove
  · have hle : ss * (sector' + 1) ≤ ss * sector := Nat.mul_le_mul_left _ hbelow
    rw [Nat.mul_succ] at hle
    omega
  · have hle : ss * (sector + count) ≤ ss * sector' := Nat.mul_le_mul_left _ habove
    rw [Nat.mul_add] at hle
    omega

theorem sub32_add {a j : Nat} (h : a + j < 2 ^ 32) : sub32 (a + j) a = j := by
  unfold sub32 word
  omega

/-! Sectors that are written past the window. -/

section WriteSectors

variable {buff : Memory} {sector count : Nat}

theorem writeData_outside {x : Nat} (hx : x < ss * sector ∨ ss * sector + ss * count ≤ x) :
    FatFs.view { s with drive := (diskWrite faults s.drive buff sector count).1 } x =
      s.view x := by
  unfold FatFs.view overlay
  dsimp only
  rw [diskWrite_outside hx]

/-- None of the sectors of the file is in the window. -/
theorem Clear.run (h : Clear vol s chain) (hclusters : Clusters vol chain)
    (hsects : ∀ j < count, ∃ k < chain.length * vol.csize,
      sector + j = fileSect vol.toGeometry chain k) :
    s.winsect < sector ∨ sector + count ≤ s.winsect := by
  by_contra hin
  obtain ⟨k, hk, hsect⟩ := hsects (s.winsect - sector) (by omega)
  exact h.sector hclusters hk (by omega)

theorem writeData_inside {i : Nat} (hclear : Clear vol s chain) (hclusters : Clusters vol chain)
    (hsects : ∀ j < count, ∃ k < chain.length * vol.csize,
      sector + j = fileSect vol.toGeometry chain k)
    (hdone : (diskWrite faults s.drive buff sector count).2 = true) (hi : i < ss * count) :
    FatFs.view { s with drive := (diskWrite faults s.drive buff sector count).1 }
      (ss * sector + i) = buff i := by
  have hout : ss * sector + i < ss * s.winsect ∨ ss * s.winsect + ss ≤ ss * sector + i := by
    have hapart := hclear.run hclusters hsects
    unfold ss at *
    omega
  unfold FatFs.view
  rw [overlay_outside hout]
  dsimp only
  rw [diskWrite_done hdone, store_eq_overlay, overlay_inside (by omega) (by omega),
    Nat.add_sub_cancel_left]

/-- All that is written to lies behind the start of the clusters. -/
theorem writeData_below (faults : Faults) (s : FatFs) (buff : Memory)
    (hclusters : Clusters vol chain) (hsects : ∀ j < count, ∃ k < chain.length * vol.csize,
      sector + j = fileSect vol.toGeometry chain k) {x : Nat} (hx : x < ss * vol.database) :
    (diskWrite faults s.drive buff sector count).1.mem x = s.drive.mem x := by
  apply diskWrite_outside
  by_cases hcount : count = 0
  · rw [hcount]
    omega
  · obtain ⟨k, hk, hsect⟩ := hsects 0 (by omega)
    have hlow : ss * vol.database ≤ ss * sector :=
      Nat.mul_le_mul_left _ (by have := (hclusters.data hk).1; omega)
    omega

theorem writeData_entry (faults : Faults) (s : FatFs) (buff : Memory)
    (hclusters : Clusters vol chain) (hsects : ∀ j < count, ∃ k < chain.length * vol.csize,
      sector + j = fileSect vol.toGeometry chain k) (hlt : c < vol.nFatent) :
    fatEntry vol.toGeometry
      (FatFs.view { s with drive := (diskWrite faults s.drive buff sector count).1 }) c =
        fatEntry vol.toGeometry s.view c := by
  apply fatEntry_congr hlt
  intro x hx
  unfold FatFs.view overlay
  dsimp only
  rw [writeData_below faults s buff hclusters hsects (fatArea_below hx)]

/-- Sectors of the file are written. -/
theorem writeData_frame (faults : Faults) (buff : Memory) (hc : Coherent s)
    (hclear : Clear vol s chain) (hclusters : Clusters vol chain)
    (hsects : ∀ j < count, ∃ k < chain.length * vol.csize,
      sector + j = fileSect vol.toGeometry chain k) :
    Frame vol s { s with drive := (diskWrite faults s.drive buff sector count).1 } chain := by
  refine ⟨⟨⟨?_, hc.valid⟩, fun c _ hlt _ _ =>
    writeData_entry faults s buff hclusters hsects hlt, ?_, ?_⟩, .inl rfl⟩
  · intro hclean hsector i hi
    have hapart := hclear.run hclusters hsects
    dsimp only
    rw [diskWrite_outside (by unfold ss at *; omega)]
    exact hc.clean hclean hsector i hi
  · intro c j i hc2 hlt hmem _ hj hi
    apply writeData_outside
    by_contra hin
    -- the byte would lie in one of the sectors of the file
    have hsect : clust2sect vol.toGeometry c + j - sector < count := by
      unfold ss at hin hi
      omega
    obtain ⟨k, hk, heq⟩ := hsects _ hsect
    apply hclusters.apart hk ⟨hc2, hlt⟩ hmem hj
    rw [← heq]
    unfold ss at hin hi
    omega
  · intro x hx
    have hbelow : ss * (vol.volbase + 1) ≤ ss * vol.database := by
      apply Nat.mul_le_mul_left
      have hreserved := vol.reserved
      have hfats := vol.fats_below
      omega
    unfold FatFs.view overlay
    dsimp only
    rw [writeData_below faults s buff hclusters hsects (by omega)]

end WriteSectors

end PosixRtos.Fs
