import PosixRtos.Fs.Directory
import PosixRtos.Fs.Contents

/-! The table of a directory grows: `dir_next` at its end, where a cluster is got and filled
with 0. -/
namespace PosixRtos.Fs

open PosixRtos.Library.ByteMemory PosixRtos.Library.Overlay PosixRtos.Library.Chains
open PosixRtos.Heap (word sub32)

variable {faults : Faults} {vol : Volume} {s s' s'' : FatFs} {chain chain' chain'' : List Nat}
variable {dp dp' : Dir} {sclust i k c : Nat}

/-! What an access to a directory leaves alone. -/

/-- An access to the clusters `chain`, which are `chain'` afterwards. The window does not come to
a cluster that is free or another one's. -/
structure Tended (faults : Faults) (vol : Volume) (s s' : FatFs) (chain chain' : List Nat) :
    Prop where
  elsewhere : Elsewhere vol s s' chain
  grown : ∀ c ∈ chain', c ∈ chain ∨
    (2 ≤ c ∧ c < vol.nFatent) ∧ fatEntry vol.toGeometry s.view c = 0
  ones : Faulty faults ∨ NoOnes vol s → Faulty faults ∨ NoOnes vol s'
  window : ∀ others : List Nat, (∀ c ∈ others, (2 ≤ c ∧ c < vol.nFatent) ∧ c ∉ chain ∧
    fatEntry vol.toGeometry s.view c ≠ 0) → Clear vol s others → Clear vol s' others

theorem Tended.trans (h : Tended faults vol s s' chain chain')
    (h' : Tended faults vol s' s'' chain' chain'') : Tended faults vol s s'' chain chain'' := by
  refine ⟨h.elsewhere.trans h'.elsewhere fun c hc => (h.grown c hc).imp_right And.right, ?_,
    fun hones => h'.ones (h.ones hones), ?_⟩
  · intro c hc
    rcases h'.grown c hc with hin | ⟨hrange, hfree⟩
    · exact h.grown c hin
    · rcases h.elsewhere.free hrange.1 hrange.2 hfree with hin | hfree
      · exact .inl hin
      · exact .inr ⟨hrange, hfree⟩
  · intro others hothers hclear
    apply h'.window others _ (h.window others hothers hclear)
    intro c hc
    obtain ⟨hrange, hmem, hused⟩ := hothers c hc
    refine ⟨hrange, fun hin => ?_, ?_⟩
    · rcases h.grown c hin with hin | ⟨-, hfree⟩
      · exact hmem hin
      · exact hused hfree
    · rw [h.elsewhere.entries c hrange.1 hrange.2 hmem hused]
      exact hused

/-- The window shows a cluster that is used. -/
theorem Clear.cluster {others : List Nat} {j : Nat} (hc : 2 ≤ c ∧ c < vol.nFatent)
    (hj : j < vol.csize) (hwin : s.winsect = clust2sect vol.toGeometry c + j)
    (hused : fatEntry vol.toGeometry s.view c ≠ 0) (hmem : c ∉ others) : Clear vol s others := by
  intro c' j' hc' hlt' hin hj' heq
  obtain ⟨rfl, -⟩ := clust2sect_inj hc hj ⟨hc', hlt'⟩ hj' (hwin.symm.trans heq)
  exact hin.elim hmem hused

/-- The clusters of a directory are different ones. -/
theorem Chain.nodup (h : Chain vol s chain) : chain.Nodup :=
  h.1.nodup fun c hc => Nat.not_le.mpr (h.2 c hc).2

/-- A sector of a directory is none of a cluster that it does not have. -/
theorem Directory.apart {j : Nat} (hdir : Directory vol s sclust chain)
    (hk : k < tableLength vol.toGeometry chain) (hc : 2 ≤ c ∧ c < vol.nFatent) (hmem : c ∉ chain)
    (hj : j < vol.csize) : clust2sect vol.toGeometry c + j ≠ tableSect vol.toGeometry chain k := by
  unfold tableLength at hk
  unfold tableSect
  by_cases hnil : chain = []
  · rw [if_pos hnil] at hk ⊢
    obtain ⟨-, -, -, hfits⟩ := hdir.root hnil
    have hdata := clust2sect_data hc hj
    omega
  · rw [if_neg hnil] at hk ⊢
    have hclusters : Clusters vol chain := ⟨hdir.linked.2, hdir.linked.nodup⟩
    exact hclusters.apart hk hc hmem hj

/-- The window shows a sector of a directory. -/
theorem Directory.clear {others : List Nat} (hdir : Directory vol s sclust chain)
    (hk : k < tableLength vol.toGeometry chain)
    (hwin : s.winsect = tableSect vol.toGeometry chain k) (hothers : ∀ c ∈ others, c ∉ chain) :
    Clear vol s others := by
  intro c j hc hlt hin hj heq
  have hmem : c ∉ chain := by
    intro hown
    have hused := hdir.linked.entry_cases hown
    rcases hin with hother | hfree
    · exact hothers c hother hown
    · omega
  exact hdir.apart hk ⟨hc, hlt⟩ hmem hj (heq.symm.trans hwin)

theorem Kept.elsewhere (h : Kept vol.toGeometry s s') (chain : List Nat) :
    Elsewhere vol s s' chain :=
  (h.limited []).elsewhere fun _ hc => by cases hc

/-- Another one's access does not change a directory. -/
theorem Directory.elsewhere (h : Directory vol s sclust chain)
    (helse : Elsewhere vol s s' chain') (hapart : List.Disjoint chain' chain) :
    Directory vol s' sclust chain := by
  refine ⟨h.linked.congr fun c hc => ?_, h.start, h.root⟩
  have hrange := h.linked.2 c hc
  have hused := h.linked.entry_cases hc
  exact helse.entries c hrange.1 hrange.2 (fun hin => hapart hin hc) (by omega)

/-- A walk through the directory. -/
theorem Walked.tended (h : Walked vol chain s s') (hdir : Directory vol s sclust chain) :
    Tended faults vol s s' chain chain := by
  refine ⟨h.elsewhere chain, fun c hc => .inl hc, fun hones => hones.imp_right h.noOnes_iff.mpr, ?_⟩
  intro others hothers hclear
  rcases h.window with hstays | ⟨k, hk, hwin⟩
  · exact hclear.kept h.toKept hstays
  · exact (h.directory hdir).clear hk hwin fun c hc => (hothers c hc).2.1

/-! The table grows. -/

/-- Some sectors of the medium that are filled with 0. -/
def Zeroed (vol : Volume) (mem mem' : Memory) (sect n : Nat) : Prop :=
  ∀ x, vol.Counts x →
    mem' x = if ss * sect ≤ x ∧ x < ss * (sect + n) then 0 else mem x

/-- What the loop leaves behind when a request has failed. -/
structure ZeroFailed (vol : Volume) (s s' : FatFs) (n : Nat) : Prop where
  coherent : Coherent s'
  inside : ∃ j < n, s'.winsect = s.winsect + j
  outside : ∀ x, vol.Counts x → ¬ (ss * s.winsect ≤ x ∧ x < ss * (s.winsect + n)) →
    s'.view x = s.drive.mem x

theorem clearCluster_spec (faults : Faults) {n : Nat} (hclean : s.wflag = false)
    (hwin : ∀ i < ss, s.win i = 0) (hlow : vol.database ≤ s.winsect)
    (hhigh : s.winsect + n ≤ vol.database + (vol.nFatent - 2) * vol.csize) :
    ∃ s' r, clearCluster faults vol.toGeometry n s = (s', r) ∧
      ((r = .ok ∧ s'.wflag = false ∧ s'.winsect = s.winsect + n ∧ (∀ i < ss, s'.win i = 0) ∧
          Zeroed vol s.drive.mem s'.drive.mem s.winsect n) ∨
        r = .diskErr ∧ Faulty faults ∧ ZeroFailed vol s s' n) := by
  have hbelow := vol.data_below
  have hfits := vol.data_fits
  induction n generalizing s with
  | zero =>
    refine ⟨s, .ok, rfl, .inl ⟨rfl, hclean, rfl, hwin, fun x _ => ?_⟩⟩
    rw [Nat.add_zero, if_neg (by omega)]
  | succ n ih =>
    have hmul : ∀ m, ss * (s.winsect + m) = ss * s.winsect + ss * m := Nat.mul_add _ _
    have hmarked : Coherent { s with wflag := true } :=
      ⟨fun hfalse => (by cases hfalse), fun _ => (by dsimp only; omega)⟩
    have hview : ∀ x, FatFs.view { s with wflag := true } x =
        if ss * s.winsect ≤ x ∧ x < ss * (s.winsect + 1) then 0 else s.drive.mem x := by
      intro x
      unfold FatFs.view
      dsimp only
      by_cases hin : ss * s.winsect ≤ x ∧ x < ss * (s.winsect + 1)
      · rw [if_pos hin]
        rw [hmul] at hin
        rw [overlay_inside hin.1 (by omega)]
        exact hwin _ (by omega)
      · rw [if_neg hin]
        rw [hmul] at hin
        rw [overlay_outside (by omega)]
    unfold clearCluster
    generalize hsync : syncWindow faults vol.toGeometry { s with wflag := true } = synced
    obtain ⟨s₁, r₁⟩ := synced
    dsimp only
    obtain ⟨hkept, hsector, ⟨rfl, hclean₁⟩ | ⟨rfl, hfaulty⟩⟩ := syncWindow_spec hmarked hsync
    all_goals dsimp only at hsector
    · rw [if_pos rfl]
      have hword : word (s₁.winsect + 1) = s.winsect + 1 := by
        rw [hsector]
        exact Nat.mod_eq_of_lt (by omega)
      have hzero : ∀ i < ss, s₁.win i = 0 := by
        intro i hi
        have hbyte := byte_counts hlow (by omega) hi
        rw [← view_window hi, hsector, hkept.view _ (data_counts hbyte.1 hbyte.2).1, hview,
          if_pos (by rw [hmul]; omega)]
      have hmem : Zeroed vol s.drive.mem s₁.drive.mem s.winsect 1 := by
        intro x hx
        rw [← hkept.coherent.view_clean hclean₁ hx.1, hkept.view x hx, hview]
      obtain ⟨s₂, r₂, hloop, hr⟩ := @ih { s₁ with winsect := word (s₁.winsect + 1) } hclean₁ hzero
        (by dsimp only; omega) (by dsimp only; omega)
      refine ⟨s₂, r₂, hloop, ?_⟩
      dsimp only at hr
      rw [hword] at hr
      rcases hr with ⟨rfl, hclean₂, hsector₂, hzero₂, hzeroed⟩ | ⟨rfl, hfaulty, hfailed⟩
      · refine .inl ⟨rfl, hclean₂, by omega, hzero₂, fun x hx => ?_⟩
        rw [hzeroed x hx, hmem x hx]
        unfold ss
        split
        next hin => rw [if_pos (by omega)]
        next hout =>
          split
          next hin => rw [if_pos (by omega)]
          next hout' => rw [if_neg (by omega)]
      · refine .inr ⟨rfl, hfaulty, hfailed.coherent, ?_, fun x hx hout => ?_⟩
        · obtain ⟨j, hj, heq⟩ := hfailed.inside
          dsimp only at heq
          exact ⟨j + 1, by omega, by omega⟩
        · unfold ss at hout
          rw [hfailed.outside x hx (by unfold ss; dsimp only; omega)]
          dsimp only
          rw [hmem x hx, if_neg (by unfold ss; omega)]
    · rw [if_neg (by decide)]
      refine ⟨s₁, _, rfl, .inr ⟨rfl, hfaulty, hkept.coherent, ⟨0, by omega, hsector⟩, ?_⟩⟩
      intro x hx hout
      unfold ss at hout
      rw [hkept.view x hx, hview, if_neg (by unfold ss; omega)]

/-- The FAT is that of `s`, and so is all else but for the sectors of one cluster. -/
structure Filled (vol : Volume) (s s' : FatFs) (c : Nat) : Prop where
  coherent : Coherent s'
  outside : ∀ x, vol.Counts x → ¬ (ss * clust2sect vol.toGeometry c ≤ x ∧
    x < ss * (clust2sect vol.toGeometry c + vol.csize)) → s'.view x = s.view x
  window : s'.winsect < vol.database ∨ s'.winsect = noSector ∨
    ∃ j < vol.csize, s'.winsect = clust2sect vol.toGeometry c + j

theorem Filled.entry {c' : Nat} (h : Filled vol s s' c) (hc : 2 ≤ c ∧ c < vol.nFatent)
    (hlt : c' < vol.nFatent) :
    fatEntry vol.toGeometry s'.view c' = fatEntry vol.toGeometry s.view c' := by
  apply fatEntry_congr hlt
  intro x hx
  have hdata := clust2sect_data hc vol.csize_pos
  rw [Nat.add_zero] at hdata
  have hbelow := fatArea_below hx
  have hle : ss * vol.database ≤ ss * clust2sect vol.toGeometry c :=
    Nat.mul_le_mul_left _ hdata.1
  exact h.outside x (fatArea_counts hx) fun hin => (hbelow.trans_le hle).not_ge hin.1

/-- A directory gets a cluster. -/
theorem Allocated.tended {s₁ : FatFs} {ncl : Nat} (halloc : Allocated vol s s₁ c ncl)
    (hmem : c ∈ chain) (hfilled : Filled vol s₁ s' ncl) :
    Tended faults vol s s' chain (chain ++ [ncl]) := by
  have hentry : ∀ c', 2 ≤ c' → c' < vol.nFatent → fatEntry vol.toGeometry s'.view c' =
      if c' = ncl then lastLink vol.fsType else if c' = c then ncl
      else fatEntry vol.toGeometry s.view c' := fun c' hc' hlt' =>
    (hfilled.entry halloc.range hlt').trans (halloc.entries c' hc' hlt')
  have hends := vol.ends_known
  have hclusters := vol.clusters
  refine ⟨⟨hfilled.coherent, ?_, ?_, ?_⟩, ?_, ?_, ?_⟩
  · intro c' hc' hlt' hnot hused
    rw [hentry c' hc' hlt', if_neg, if_neg]
    · rintro rfl
      exact hnot hmem
    · rintro rfl
      exact hused halloc.free
  · intro c' j i hc' hlt' hnot hused hj hi
    have hdata := clust2sect_data ⟨hc', hlt'⟩ hj
    have hbyte := byte_counts hdata.1 hdata.2 hi
    have hcounts := data_counts hbyte.1 hbyte.2
    rw [hfilled.outside _ hcounts.1, halloc.fatOnly.outside _ hcounts.1 hcounts.2]
    rintro ⟨hlow, hhigh⟩
    -- the byte would be one of the new cluster
    have hoffset : clust2sect vol.toGeometry c' + j - clust2sect vol.toGeometry ncl <
        vol.csize := by
      unfold ss at hlow hhigh hi
      omega
    obtain ⟨rfl, -⟩ := clust2sect_inj ⟨hc', hlt'⟩ hj halloc.range hoffset (by
      unfold ss at hlow hi
      omega)
    exact hused halloc.free
  · intro x hx
    obtain ⟨hcounts, hfat⟩ := boot_counts hx
    have hdata := clust2sect_data halloc.range vol.csize_pos
    have hreserved := vol.reserved
    have hbelow := vol.fats_below
    rw [hfilled.outside x hcounts (by unfold ss at hx ⊢; omega),
      halloc.fatOnly.outside x hcounts hfat]
  · intro c' hc'
    rcases List.mem_append.mp hc' with hin | hnew
    · exact .inl hin
    · obtain rfl := List.mem_singleton.mp hnew
      exact .inr ⟨halloc.range, halloc.free⟩
  · refine fun hones => hones.imp_right fun hones c' hc' hlt' => ?_
    rw [hentry c' hc' hlt']
    split
    · omega
    · split
      · have := halloc.range
        omega
      · exact hones c' hc' hlt'
  · intro others hothers _
    rcases hfilled.window with hfront | hnone | ⟨j, hj, hwin⟩
    · exact .front (.inl hfront) s' others
    · exact .front (.inr hnone) s' others
    · apply Clear.cluster halloc.range hj hwin
      · rw [hentry ncl halloc.range.1 halloc.range.2, if_pos rfl]
        omega
      · exact fun hin => (hothers ncl hin).2.2 halloc.free

/-- The cluster is lost where the call fails afterwards. -/
theorem Tended.lost (h : Tended faults vol s s' chain chain') :
    Tended faults vol s s' chain chain :=
  ⟨h.elsewhere, fun _ hc => .inl hc, h.ones, h.window⟩

/-- What a call that may stretch the directory comes to. -/
inductive Stretched (faults : Faults) (vol : Volume) (s : FatFs) (sclust : Nat)
    (chain : List Nat) : FatFs → Except DirResult Nat → Prop where
  | grown {s' : FatFs} {ncl : Nat} : Tended faults vol s s' chain (chain ++ [ncl]) →
      Directory vol s' sclust (chain ++ [ncl]) → Stretched faults vol s sclust chain s' (.ok ncl)
  | full {s' : FatFs} : Tended faults vol s s' chain chain → Directory vol s' sclust chain →
      Stretched faults vol s sclust chain s' (.error (.res .denied))
  | failed {s' : FatFs} {e : FResult} : e = .intErr ∨ e = .diskErr → Faulty faults →
      Tended faults vol s s' chain chain → Stretched faults vol s sclust chain s' (.error (.res e))

/-- The new cluster of a directory is filled with 0. -/
theorem fillCluster_spec (faults : Faults) (hc : Coherent s) (hclean : s.wflag = false)
    (hrange : 2 ≤ c ∧ c < vol.nFatent) :
    ∃ s' r, clearCluster faults vol.toGeometry vol.csize
        { s with
          win := write s.win 0 (List.replicate ss 0)
          winsect := clust2sect vol.toGeometry c } = (s', r) ∧
      (r = .ok ∧ Filled vol s { s' with winsect := sub32 s'.winsect vol.csize } c ∨
        r = .diskErr ∧ Faulty faults ∧ Filled vol s s' c) := by
  have hdata := clust2sect_data hrange vol.csize_pos
  have hlast := clust2sect_data hrange (Nat.sub_one_lt_of_lt vol.csize_pos)
  rw [Nat.add_zero] at hdata
  have hpos := vol.csize_pos
  have hfits := vol.data_fits
  have hzero : ∀ i < ss, write s.win 0 (List.replicate ss 0) i = 0 := by
    intro i hi
    have hinside : write s.win 0 (List.replicate ss 0) (0 + i) = _ :=
      write_inside (by simpa using hi)
    rw [Nat.zero_add] at hinside
    rw [hinside, List.getElem_replicate]
  obtain ⟨s', r, hcall, hr⟩ := @clearCluster_spec vol { s with
      win := write s.win 0 (List.replicate ss 0)
      winsect := clust2sect vol.toGeometry c } faults vol.csize hclean hzero
    (by dsimp only; omega) (by dsimp only; omega)
  refine ⟨s', r, hcall, ?_⟩
  dsimp only at hr
  rcases hr with ⟨rfl, hclean', hsector, hwin, hzeroed⟩ | ⟨rfl, hfaulty, hfailed⟩
  · have hback : sub32 s'.winsect vol.csize = clust2sect vol.toGeometry c := by
      rw [hsector, Nat.add_comm]
      exact sub32_add (by omega)
    have hcoherent : Coherent { s' with winsect := sub32 s'.winsect vol.csize } := by
      refine ⟨fun _ _ i hi => ?_, fun hdirty => ?_⟩
      · dsimp only
        have hbyte := byte_counts hdata.1 hdata.2 hi
        rw [hback, hwin i hi, hzeroed _ (data_counts hbyte.1 hbyte.2).1, if_pos]
        unfold ss at hi ⊢
        omega
      · cases hclean'.symm.trans hdirty
    refine .inl ⟨rfl, hcoherent, fun x hx hout => ?_,
      .inr (.inr ⟨0, hpos, hback.trans (Nat.add_zero _).symm⟩)⟩
    rw [hcoherent.view_clean hclean' hx.1]
    dsimp only
    rw [hzeroed x hx, if_neg hout, hc.view_clean hclean hx.1]
  · obtain ⟨j, hj, hsector⟩ := hfailed.inside
    have houtside := hfailed.outside
    dsimp only at hsector houtside
    refine .inr ⟨rfl, hfaulty, hfailed.coherent, fun x hx hout => ?_,
      .inr (.inr ⟨j, hj, hsector⟩)⟩
    rw [houtside x hx hout, hc.view_clean hclean hx.1]

theorem stretchDir_spec (hc : Coherent s) (hones : Faulty faults ∨ NoOnes vol s)
    (hdir : Directory vol s sclust chain) (hlast : chain.getLast? = some c)
    (hfront : s.winsect < vol.database ∨ s.winsect = noSector) :
    ∃ s' r, stretchDir faults vol.toGeometry s c = some (s', r) ∧
      Stretched faults vol s sclust chain s' r := by
  have hmem : c ∈ chain := List.mem_of_getLast? hlast
  have hrange := hdir.linked.2 c hmem
  have hend : vol.nFatent ≤ fatEntry vol.toGeometry s.view c := by
    obtain ⟨ds, rfl⟩ := List.getLast?_eq_some_iff.mp hlast
    exact hdir.linked.1.last
  obtain ⟨s₁, v, hcall, hcreated⟩ : ∃ s₁ v, createChain faults vol.toGeometry s c =
    some (s₁, v) ∧ Created faults vol s c s₁ v := createChain_spec hc (.inr hrange)
  have hstays := createChain_stays hcall
  have hfront₁ : s₁.winsect < vol.database ∨ s₁.winsect = noSector := by
    rcases hstays with hsame | hfront₁
    · rw [hsame]
      exact hfront
    · exact hfront₁
  unfold stretchDir
  rw [hcall]
  simp only [Option.bind_eq_bind, Option.bind_some]
  cases hcreated with
  | failed hfaulty hlimited =>
    rw [if_neg (by decide), if_neg (by decide), if_pos rfl]
    refine ⟨s₁, _, rfl, .failed (.inr rfl) hfaulty ⟨hlimited.elsewhere fun d hd => ?_,
      fun _ hd => .inl hd, fun _ => .inl hfaulty, fun others _ _ => .front hfront₁ s₁ others⟩⟩
    exact .inl (List.mem_singleton.mp hd ▸ hmem)
  | broken hbroken hkept =>
    rw [if_neg (by decide), if_pos rfl]
    have hwalked : Walked vol chain s s₁ := ⟨hkept, .inl hstays⟩
    refine ⟨s₁, _, rfl, .failed (.inl rfl) ?_ (hwalked.tended hdir)⟩
    rcases hbroken with ⟨-, hfree⟩ | hsome
    · have hclusters := vol.clusters
      omega
    · exact hones.resolve_right hsome
  | linked _ _ hlt _ => exact absurd hlt (Nat.not_lt.mpr hend)
  | full _ _ hkept =>
    rw [if_pos rfl]
    have hwalked : Walked vol chain s s₁ := ⟨hkept, .inl hstays⟩
    exact ⟨s₁, _, rfl, .full (hwalked.tended hdir) (hwalked.directory hdir)⟩
  | new _ _ halloc =>
    have hnew := halloc.range
    have hsmall := vol.nFatent_lt
    rw [if_neg (by omega), if_neg (by omega), if_neg (by unfold diskError; omega)]
    generalize hsync : syncWindow faults vol.toGeometry s₁ = synced
    obtain ⟨s₂, r₂⟩ := synced
    dsimp only
    obtain ⟨hkept, hsector, ⟨rfl, hclean⟩ | ⟨rfl, hfaulty⟩⟩ :=
      syncWindow_spec halloc.fatOnly.coherent hsync
    · rw [if_neg (by decide)]
      obtain ⟨s₃, r₃, hclear, hr⟩ := fillCluster_spec faults hkept.coherent hclean hnew
      rw [hclear]
      dsimp only
      have hbefore : ∀ {t : FatFs}, Filled vol s₂ t v → Filled vol s₁ t v := fun hfilled =>
        ⟨hfilled.coherent, fun x hx hout => (hfilled.outside x hx hout).trans (hkept.view x hx),
          hfilled.window⟩
      rcases hr with ⟨rfl, hfilled⟩ | ⟨rfl, hfaulty, hfilled⟩
      · rw [if_neg (by decide)]
        refine ⟨_, _, rfl, .grown (halloc.tended hmem (hbefore hfilled)) ⟨?_, ?_, ?_⟩⟩
        · have hlinked := (halloc.chain hdir.linked hdir.linked.nodup (by rw [hlast]; rfl)).2
          exact hlinked.congr fun d hd => (hbefore hfilled).entry hnew (hlinked.2 d hd).2
        · have hhead : (chain ++ [v]).headD 0 = chain.headD 0 := by
            obtain ⟨d, ds, rfl⟩ := List.exists_cons_of_ne_nil (List.ne_nil_of_mem hmem)
            rfl
          rw [hhead]
          exact hdir.start
        · intro hnil
          simp at hnil
      · rw [if_pos (by decide)]
        exact ⟨_, _, rfl, .failed (.inr rfl) hfaulty (halloc.tended hmem (hbefore hfilled)).lost⟩
    · rw [if_pos (by decide)]
      refine ⟨s₂, _, rfl, .failed (.inr rfl) hfaulty (halloc.tended hmem ?_).lost⟩
      exact ⟨hkept.coherent, fun x hx _ => hkept.view x hx,
        by rw [hsector]; exact hfront₁.imp_right .inl⟩

/-- Where the table is not at its end it is not stretched. -/
theorem dirNext_same {r : DirResult}
    (hcall : dirNext faults vol.toGeometry s dp false = some (s', dp', r)) (hr : r ≠ .noFile) :
    dirNext faults vol.toGeometry s dp true = some (s', dp', r) := by
  unfold dirNext at hcall ⊢
  dsimp only at hcall ⊢
  by_cases hend : (dp.index + 1) % 2 ^ 16 = 0 ∨ dp.sect = 0
  · rw [if_pos hend] at hcall ⊢
    exact hcall
  rw [if_neg hend] at hcall ⊢
  by_cases hsame : (dp.index + 1) % perSect ≠ 0
  · rw [if_pos hsame] at hcall ⊢
    exact hcall
  rw [if_neg hsame] at hcall ⊢
  by_cases hroot : dp.clust = 0
  · rw [if_pos hroot] at hcall ⊢
    exact hcall
  rw [if_neg hroot] at hcall ⊢
  by_cases hinside : (dp.index + 1) / perSect &&& (vol.csize - 1) ≠ 0
  · rw [if_pos hinside] at hcall ⊢
    exact hcall
  rw [if_neg hinside] at hcall ⊢
  generalize getFat faults vol.toGeometry s dp.clust = got at hcall ⊢
  obtain ⟨s₁, clst⟩ := got
  dsimp only at hcall ⊢
  by_cases hbroken : clst ≤ 1
  · rw [if_pos hbroken] at hcall ⊢
    exact hcall
  rw [if_neg hbroken] at hcall ⊢
  by_cases hfailed : clst = diskError
  · rw [if_pos hfailed] at hcall ⊢
    exact hcall
  rw [if_neg hfailed] at hcall ⊢
  by_cases hlast : vol.nFatent ≤ clst
  · rw [if_pos hlast, if_neg (by simp)] at hcall
    cases hcall
    exact absurd rfl hr
  · rw [if_neg hlast] at hcall ⊢
    exact hcall

/-- What a call that may stretch the directory comes to. Where it succeeds `P` is true of the
state, the clusters and the object. -/
inductive Enlarged (faults : Faults) (vol : Volume) (s : FatFs) (sclust : Nat) (chain : List Nat)
    (P : FatFs → List Nat → Dir → Prop) : FatFs → Dir → DirResult → Prop where
  | found {s' : FatFs} {dp' : Dir} {chain' : List Nat} : Tended faults vol s s' chain chain' →
      chain <+: chain' → Directory vol s' sclust chain' → P s' chain' dp' →
      Enlarged faults vol s sclust chain P s' dp' (.res .ok)
  | full {s' : FatFs} {dp' : Dir} {chain' : List Nat} {r : DirResult} :
      r = .noFile ∨ r = .res .denied → Tended faults vol s s' chain chain' →
      chain <+: chain' → Directory vol s' sclust chain' →
      Enlarged faults vol s sclust chain P s' dp' r
  | failed {s' : FatFs} {dp' : Dir} {e : FResult} : e = .intErr ∨ e = .diskErr → Faulty faults →
      Tended faults vol s s' chain chain → Enlarged faults vol s sclust chain P s' dp' (.res e)

theorem Tended.refl (hc : Coherent s) : Tended faults vol s s chain chain :=
  ⟨.refl hc chain, fun _ hc => .inl hc, id, fun _ _ hclear => hclear⟩

/-- The next entry lies behind a table of clusters. -/
theorem chain_end (hne : chain ≠ []) (hat : DirAt vol chain dp i) (hi : i + 1 < 2 ^ 16)
    (hend : entryCount vol.toGeometry chain ≤ i + 1) :
    (i + 1) % perSect = 0 ∧ (i + 1) / perSect = chain.length * vol.csize ∧
      chain.getLast? = some dp.clust := by
  have hk := (lt_entryCount.mp hat.bound).1
  have hlength : tableLength vol.toGeometry chain = chain.length * vol.csize := if_neg hne
  have hover : chain.length * vol.csize ≤ (i + 1) / perSect := by
    by_contra hlt
    refine (Nat.not_lt.mpr hend) (lt_entryCount.mpr ⟨?_, hi⟩)
    rw [hlength]
    omega
  rw [hlength] at hk
  have hround : (i + 1) / perSect = chain.length * vol.csize := by
    rw [perSect_eq] at hk hover ⊢
    omega
  have hlast : i / perSect / vol.csize = chain.length - 1 := by
    rw [perSect_eq] at hk hround ⊢
    have hbefore : i / 16 = (chain.length - 1) * vol.csize + (vol.csize - 1) := by
      have hpos := vol.csize_pos
      have hsome := List.length_pos_iff.mpr hne
      have hsplit : chain.length * vol.csize = (chain.length - 1) * vol.csize + vol.csize := by
        rw [← Nat.succ_mul]
        congr 1
        omega
      omega
    rw [hbefore, Nat.mul_comm, Nat.mul_add_div vol.csize_pos, Nat.div_eq_of_lt, Nat.add_zero]
    have hpos := vol.csize_pos
    omega
  refine ⟨?_, hround, ?_⟩
  · rw [perSect_eq] at hk hround ⊢
    omega
  · rw [List.getLast?_eq_getElem?, ← hlast, hat.clust, List.getD_eq_getElem?_getD]
    have hlt : i / perSect / vol.csize < chain.length := by
      have hsome := List.length_pos_iff.mpr hne
      omega
    rw [List.getElem?_eq_getElem hlt, Option.getD_some]

/-- The entry behind the one that `dir_next` is called at. -/
def NextPlace (vol : Volume) (i : Nat) (_ : FatFs) (chain' : List Nat) (dp' : Dir) : Prop :=
  DirAt vol chain' dp' (i + 1)

/-- The first entry of a new cluster. -/
theorem dirAt_new {ncl : Nat} (hi : i + 1 < 2 ^ 16)
    (hround : (i + 1) / perSect = chain.length * vol.csize) :
    DirAt vol (chain ++ [ncl]) (Dir.at { dp with
      clust := ncl
      sect := clust2sect vol.toGeometry ncl } (i + 1)) (i + 1) := by
  have hne : chain ++ [ncl] ≠ [] := by simp
  have hlength : tableLength vol.toGeometry (chain ++ [ncl]) =
      (chain ++ [ncl]).length * vol.csize := if_neg hne
  have hdiv : (i + 1) / perSect / vol.csize = chain.length := by
    rw [hround, Nat.mul_div_cancel _ vol.csize_pos]
  have hcluster : (chain ++ [ncl])[(i + 1) / perSect / vol.csize]? = some ncl := by
    rw [hdiv, List.getElem?_append_right le_rfl, Nat.sub_self]
    rfl
  apply dirAt_at
  · rw [lt_entryCount, hlength, List.length_append, List.length_singleton, hround,
      Nat.succ_mul]
    have hpos := vol.csize_pos
    exact ⟨by omega, hi⟩
  · rw [List.getD_eq_getElem?_getD, hcluster, Option.getD_some]
  · have htable : tableSect vol.toGeometry (chain ++ [ncl]) ((i + 1) / perSect) =
        fileSect vol.toGeometry (chain ++ [ncl]) ((i + 1) / perSect) := if_neg hne
    rw [htable, fileSect_eq hcluster, hround, Nat.mul_mod_left, Nat.add_zero]

theorem dirNext_end (hc : Coherent s) (hones : Faulty faults ∨ NoOnes vol s)
    (hdir : Directory vol s sclust chain) (hat : DirAt vol chain dp i)
    (hend : entryCount vol.toGeometry chain ≤ i + 1) :
    ∃ s' dp' r, dirNext faults vol.toGeometry s dp true = some (s', dp', r) ∧ SameDir dp dp' ∧
      Enlarged faults vol s sclust chain (NextPlace vol i) s' dp' r := by
  by_cases hfull : i + 1 = 2 ^ 16
  · unfold dirNext
    dsimp only
    rw [hat.index, if_pos (.inl (by rw [hfull, Nat.mod_self]))]
    exact ⟨s, dp, _, rfl, ⟨rfl, rfl⟩, .full (.inl rfl) (.refl hc) (List.prefix_refl _) hdir⟩
  have hi : i + 1 < 2 ^ 16 := by
    have hlt := (lt_entryCount.mp hat.bound).2
    omega
  by_cases hroot : chain = []
  · subst hroot
    have hclust : dp.clust = 0 := by
      rw [hat.clust]
      rfl
    obtain ⟨-, hmod, -, -⟩ := hdir.root rfl
    have hlength : tableLength vol.toGeometry [] = vol.nRootdir / perSect := if_pos rfl
    have hk := (lt_entryCount.mp hat.bound).1
    have hover : ¬ (i + 1) / perSect < vol.nRootdir / perSect := fun hlt =>
      (Nat.not_lt.mpr hend) (lt_entryCount.mpr ⟨by rwa [hlength], hi⟩)
    rw [hlength] at hk
    rw [perSect_eq] at hk hover hmod
    unfold dirNext
    dsimp only
    rw [hat.index, if_neg (hat.inside hdir hi), if_neg (by rw [perSect_eq]; omega),
      if_pos hclust, if_pos (by omega)]
    exact ⟨s, _, _, rfl, ⟨rfl, rfl⟩, .full (.inl rfl) (.refl hc) (List.prefix_refl _) hdir⟩
  · obtain ⟨hchange, hround, hlast⟩ := chain_end hroot hat hi hend
    have hmem := List.mem_of_getLast? hlast
    have hrange := hdir.linked.2 _ hmem
    have hmark : vol.nFatent ≤ fatEntry vol.toGeometry s.view dp.clust := by
      obtain ⟨ds, hds⟩ := List.getLast?_eq_some_iff.mp hlast
      have hlinked := hdir.linked.1
      rw [hds] at hlinked
      exact hlinked.last
    obtain ⟨p, hp, hcsize⟩ := vol.csize_pow
    have hand : (i + 1) / perSect &&& (vol.csize - 1) = 0 := by
      rw [hcsize, Nat.and_two_pow_sub_one_eq_mod, hround, ← hcsize, Nat.mul_mod_left]
    have hstays := getFat_stays faults vol s dp.clust
    unfold dirNext
    dsimp only
    rw [hat.index, if_neg (hat.inside hdir hi), if_neg (not_not.mpr hchange),
      if_neg (by omega), if_neg (not_not.mpr hand)]
    generalize hget : getFat faults vol.toGeometry s dp.clust = got at hstays
    obtain ⟨s₁, v⟩ := got
    dsimp only at hstays ⊢
    obtain ⟨hkept, hv⟩ := getFat_spec hc hrange.1 hrange.2 hget
    have hwalked : Walked vol chain s s₁ := ⟨hkept, .inl hstays⟩
    have htended : Tended faults vol s s₁ chain chain := hwalked.tended hdir
    rcases hv with rfl | ⟨rfl, hfaulty⟩
    · have hsmall := fatEntry_lt vol.toGeometry s.view dp.clust
      have hclusters := vol.clusters
      have hok : fatEntry vol.toGeometry s.view dp.clust ≠ diskError := by
        unfold diskError
        omega
      rw [if_neg (by omega), if_neg hok, if_pos hmark, if_pos rfl]
      obtain ⟨s₂, r₂, hstretch, hresult⟩ := stretchDir_spec hkept.coherent
        (htended.ones hones) (hwalked.directory hdir) hlast (.inl (getFat_front hc hrange hget hok))
      rw [hstretch]
      simp only [Option.bind_eq_bind, Option.bind_some]
      cases hresult with
      | grown hgrown hdir₂ =>
        exact ⟨s₂, _, _, rfl, ⟨rfl, rfl⟩, .found (htended.trans hgrown)
          (List.prefix_append _ _) hdir₂ (dirAt_new hi hround)⟩
      | full hkept₂ hdir₂ =>
        exact ⟨s₂, _, _, rfl, ⟨rfl, rfl⟩, .full (.inr rfl) (htended.trans hkept₂)
          (List.prefix_refl _) hdir₂⟩
      | failed he hfaulty hkept₂ =>
        exact ⟨s₂, _, _, rfl, ⟨rfl, rfl⟩, .failed he hfaulty (htended.trans hkept₂)⟩
    · rw [if_neg (by decide), if_pos rfl]
      exact ⟨s₁, _, _, rfl, ⟨rfl, rfl⟩, .failed (.inr rfl) hfaulty htended⟩

theorem dirNext_grows (hc : Coherent s) (hones : Faulty faults ∨ NoOnes vol s)
    (hdir : Directory vol s sclust chain) (hat : DirAt vol chain dp i) :
    ∃ s' dp' r, dirNext faults vol.toGeometry s dp true = some (s', dp', r) ∧ SameDir dp dp' ∧
      Enlarged faults vol s sclust chain (NextPlace vol i) s' dp' r := by
  by_cases hend : entryCount vol.toGeometry chain ≤ i + 1
  · exact dirNext_end hc hones hdir hat hend
  · obtain ⟨s', dp', r, hcall, hwalked, hsame, hresult⟩ :=
      @dirNext_spec faults vol s chain dp i sclust hc hdir hat
    rcases hresult with ⟨rfl, hnext⟩ | ⟨rfl, hlast⟩ | ⟨rfl, hfaulty⟩
    · exact ⟨s', dp', _, dirNext_same hcall (by decide), hsame,
        .found (hwalked.tended hdir) (List.prefix_refl _) (hwalked.directory hdir) hnext⟩
    · exact absurd hlast hend
    · exact ⟨s', dp', _, dirNext_same hcall (by decide), hsame,
        .failed (.inr rfl) hfaulty (hwalked.tended hdir)⟩

end PosixRtos.Fs
