import PosixRtos.Fs.Reading

/-! `f_write` puts its bytes into the file at the file pointer, as many of them as there is room
for on the volume. -/
namespace PosixRtos.Fs

open PosixRtos.Library.ByteMemory PosixRtos.Library.Overlay PosixRtos.Library.Chains
open PosixRtos.Heap (word sub32)

variable {faults : Faults} {vol : Volume} {s s' : FatFs} {fp fp' : Fil}
variable {chain : List Nat} {known : Nat → Option Byte} {k n o : Nat}

/-- What is known of the file when `bytes` have been written at `pos`. -/
def overwrite (known : Nat → Option Byte) (pos : Nat) (bytes : List Byte) : Nat → Option Byte :=
  fun o => if pos ≤ o ∧ o < pos + bytes.length then bytes[o - pos]? else known o

@[simp] theorem overwrite_nil (known : Nat → Option Byte) (pos : Nat) :
    overwrite known pos [] = known := by
  funext o
  exact if_neg (by simp)

theorem overwrite_append (known : Nat → Option Byte) (pos : Nat) (bytes bytes' : List Byte) :
    overwrite (overwrite known pos bytes) (pos + bytes.length) bytes' =
      overwrite known pos (bytes ++ bytes') := by
  funext o
  unfold overwrite
  rw [List.length_append]
  by_cases hsecond : pos + bytes.length ≤ o ∧ o < pos + bytes.length + bytes'.length
  · rw [if_pos hsecond, if_pos (by omega), List.getElem?_append_right (by omega), Nat.sub_sub]
  · rw [if_neg hsecond]
    by_cases hfirst : pos ≤ o ∧ o < pos + bytes.length
    · rw [if_pos hfirst, if_pos (by omega), List.getElem?_append_left (by omega)]
    · rw [if_neg hfirst, if_neg (by omega)]

/-! The cluster. -/

/-- The file gets a cluster. -/
theorem Allocated.progress {clst ncl : Nat} (h : Allocated vol s s' clst ncl)
    (hstays : Stays vol s s') (hclst : clst = chain.getLast?.getD 0) :
    Progress vol s s' chain (chain ++ [ncl]) := by
  have hends := vol.ends_known
  have hclusters := vol.clusters
  refine ⟨h.limited.frame hstays ?_, ?_, ?_⟩
  · intro c hc
    obtain rfl := List.mem_singleton.mp hc
    cases hlast : chain.getLast? with
    | none =>
      rw [hlast, Option.getD_none] at hclst
      exact .inr (by omega)
    | some last =>
      rw [hlast, Option.getD_some] at hclst
      exact .inl (hclst ▸ List.mem_of_getLast? hlast)
  · intro c hc
    rcases List.mem_append.mp hc with hc | hc
    · exact .inl hc
    · obtain rfl := List.mem_singleton.mp hc
      exact .inr ⟨h.range, h.free⟩
  · intro hones c hc hlt
    rw [h.entries c hc hlt]
    split
    · omega
    · split
      · have := h.range
        omega
      · exact hones c hc hlt

theorem Holds.grow {clst ncl : Nat} (h : Holds vol s fp chain known)
    (halloc : Allocated vol s s' clst ncl) (hclst : clst = chain.getLast?.getD 0) :
    Holds vol s' { fp with clust := ncl, sclust := if fp.sclust = 0 then ncl else fp.sclust }
      (chain ++ [ncl]) known := by
  obtain ⟨hfresh, hlinked⟩ := halloc.chain h.linked h.nodup hclst
  have hlength : (chain ++ [ncl]).length * vol.csize = chain.length * vol.csize + vol.csize := by
    rw [List.length_append, List.length_singleton, Nat.succ_mul]
  have hroom := h.room
  have hsame : ∀ o, o < fp.extent → fileSect vol.toGeometry (chain ++ [ncl]) (o / ss) =
      fileSect vol.toGeometry chain (o / ss) :=
    fun o ho => fileSect_append _ _ (h.sector_lt ho)
  refine ⟨hlinked, ?_, ?_, ?_, h.limit, ?_, ?_, ?_⟩
  · rw [List.nodup_append]
    refine ⟨h.nodup, List.nodup_singleton _, ?_⟩
    rintro c hc d hd rfl
    exact hfresh (List.mem_singleton.mp hd ▸ hc)
  · dsimp only
    rw [h.start]
    cases hcs : chain with
    | nil => rfl
    | cons c cs =>
      have hrange := h.linked.2 c (by simp [hcs])
      exact if_neg (show ¬ c = 0 by omega)
  · rw [hlength, Nat.mul_add]
    exact hroom.trans (Nat.le_add_right _ _)
  · intro hdirty
    obtain ⟨k, hk, hdsect⟩ := h.dirty hdirty
    refine ⟨k, by omega, ?_⟩
    rw [fileSect_append _ _ hk]
    exact hdsect
  · intro o b ho hknown hhere
    rw [hsame o ho] at hhere
    exact h.buffered o b ho hknown hhere
  · intro o b ho hknown hbuffer
    rw [hsame o ho] at hbuffer ⊢
    have hdata := h.clusters.data (h.sector_lt ho)
    have hbyte := byte_counts hdata.1 hdata.2 (Nat.mod_lt o (by decide))
    have hcounts := data_counts hbyte.1 hbyte.2
    rw [halloc.fatOnly.outside _ hcounts.1 hcounts.2]
    exact h.stored o b ho hknown hbuffer

/-- `clst` is what `create_chain` is called with for the cluster of index `idx`. -/
def Before (chain : List Nat) (idx clst : Nat) : Prop :=
  (idx = 0 ∧ chain = [] ∧ clst = 0) ∨ ∃ i, i + 1 = idx ∧ chain[i]? = some clst

/-- The file with the cluster that it goes on with. -/
def Fil.goesOn (fp : Fil) (clst : Nat) : Fil :=
  { fp with clust := clst, sclust := if fp.sclust = 0 then clst else fp.sclust }

/-- What `create_chain` does for the cluster of index `idx` of a file. -/
inductive Next (faults : Faults) (vol : Volume) (s : FatFs) (fp : Fil) (chain : List Nat)
    (known : Nat → Option Byte) (idx : Nat) : FatFs → Nat → Prop where
  | failed {s' : FatFs} {v : Nat} : v = 1 ∨ v = diskError → Faulty faults →
      Frame vol s s' chain → Next faults vol s fp chain known idx s' v
  | full {s' : FatFs} : idx = chain.length →
      (∀ c, 2 ≤ c → c < vol.nFatent → fatEntry vol.toGeometry s.view c ≠ 0) →
      Kept vol.toGeometry s s' → Stays vol s s' → Next faults vol s fp chain known idx s' 0
  | found {s' : FatFs} {v : Nat} {chain' : List Nat} : 2 ≤ v ∧ v < vol.nFatent →
      chain'[idx]? = some v → Progress vol s s' chain chain' →
      Holds vol s' (fp.goesOn v) chain' known → Next faults vol s fp chain known idx s' v

/-- A cluster that the file has already. -/
theorem Holds.goesOn {c : Nat} (h : Holds vol s fp chain known) (hc : c ∈ chain) :
    Holds vol s (fp.goesOn c) chain known := by
  obtain ⟨d, ds, rfl⟩ := List.exists_cons_of_ne_nil (List.ne_nil_of_mem hc)
  have hrange := h.linked.2 d List.mem_cons_self
  have hstart : fp.sclust = d := h.start
  have hsame : fp.goesOn c = { fp with clust := c } := by
    unfold Fil.goesOn
    rw [if_neg (by omega)]
  rw [hsame]
  exact h.withClust c

theorem createNext_spec (faults : Faults) {idx clst : Nat} (h : Holds vol s fp chain known)
    (hm : Mounted faults vol s chain) (hbefore : Before chain idx clst) :
    ∃ s' v, createChain faults vol.toGeometry s clst = some (s', v) ∧
      Next faults vol s fp chain known idx s' v := by
  have hrange : clst = 0 ∨ 2 ≤ clst ∧ clst < vol.nFatent := by
    rcases hbefore with ⟨-, -, hzero⟩ | ⟨i, -, hclst⟩
    · exact .inl hzero
    · exact .inr (h.linked.2 clst (List.mem_of_getElem? hclst))
  obtain ⟨s', v, hcall, hcreated⟩ : ∃ s' v, createChain faults vol.toGeometry s clst =
    some (s', v) ∧ Created faults vol s clst s' v := createChain_spec hm.coherent hrange
  have hstays := createChain_stays hcall
  -- without a successor the file ends in this cluster
  have hlast : clst = 0 ∨ vol.nFatent ≤ fatEntry vol.toGeometry s.view clst →
      idx = chain.length ∧ clst = chain.getLast?.getD 0 := by
    intro hend
    rcases hbefore with ⟨rfl, rfl, rfl⟩ | ⟨i, rfl, hclst⟩
    · exact ⟨rfl, rfl⟩
    · obtain ⟨hi, hget⟩ := List.getElem?_eq_some_iff.mp hclst
      have hrange' := h.linked.2 clst (List.mem_of_getElem? hclst)
      have hlength : i + 1 = chain.length := by
        by_contra hmore
        have hlink := h.linked.1.next_eq (i := i) (by omega)
        rw [hget] at hlink
        have hnext := h.linked.2 _ (List.getElem_mem (show i + 1 < chain.length by omega))
        omega
      refine ⟨hlength, ?_⟩
      rw [List.getLast?_eq_getElem?, show chain.length - 1 = i by omega, hclst, Option.getD_some]
  refine ⟨s', v, hcall, ?_⟩
  cases hcreated with
  | failed hfaulty hlimited =>
    refine .failed (.inr rfl) hfaulty (hlimited.frame hstays ?_)
    intro c hc
    obtain rfl := List.mem_singleton.mp hc
    rcases hbefore with ⟨-, -, hzero⟩ | ⟨i, -, hclst⟩
    · exact .inr (by omega)
    · exact .inl (List.mem_of_getElem? hclst)
  | broken hbroken hkept =>
    refine .failed (.inl rfl) ?_ (hkept.frame hstays chain)
    rcases hbroken with ⟨hne, hfree⟩ | hones
    · rcases hbefore with ⟨-, -, hzero⟩ | ⟨i, -, hclst⟩
      · exact absurd hzero hne
      · have hused := h.linked.entry_cases (List.mem_of_getElem? hclst)
        omega
    · exact hm.ones.resolve_right hones
  | linked hne htwo hlt hkept =>
    rcases hbefore with ⟨-, -, hzero⟩ | ⟨i, rfl, hclst⟩
    · exact absurd hzero hne
    · obtain ⟨hi, hget⟩ := List.getElem?_eq_some_iff.mp hclst
      have hlength : i + 1 < chain.length := by
        by_contra hend
        obtain ⟨ds, hds⟩ := List.getLast?_eq_some_iff.mp (show chain.getLast? = some clst by
          rw [List.getLast?_eq_getElem?, show chain.length - 1 = i by omega, hclst])
        have hfinal := h.linked.1
        rw [hds] at hfinal
        have := hfinal.last
        omega
      have hlink := h.linked.1.next_eq (i := i) hlength
      rw [hget] at hlink
      refine .found ⟨htwo, hlt⟩ ?_ (hkept.progress hstays chain) ?_
      · rw [List.getElem?_eq_getElem hlength, hlink]
      · rw [hlink]
        exact (h.kept hkept).goesOn (List.getElem_mem hlength)
  | full hend hfull hkept => exact .full (hlast hend).1 hfull hkept hstays
  | new hend _ halloc =>
    obtain ⟨rfl, hclst⟩ := hlast hend
    refine .found halloc.range ?_ (halloc.progress hstays hclst) (h.grow halloc hclst)
    rw [List.getElem?_append_right le_rfl, Nat.sub_self]
    rfl

/-- The cluster that `f_write` goes on with at the start of a cluster. -/
theorem writeCluster_spec (faults : Faults) (h : FileInv vol s fp chain known)
    (hm : Mounted faults vol s chain) (hstart : fp.fptr % ss = 0)
    (hboundary : fp.fptr / ss % vol.csize = 0) :
    ∃ s' fp' r, writeCluster faults vol.toGeometry s fp = some (s', fp', r) ∧
      ((∃ res, r = .error res ∧ res ≠ .ok ∧ Faulty faults ∧ Frame vol s s' chain) ∨
        (r = .ok 0 ∧ fp' = fp ∧ Kept vol.toGeometry s s' ∧ Stays vol s s' ∧
          ∀ c, 2 ≤ c → c < vol.nFatent → fatEntry vol.toGeometry s.view c ≠ 0) ∨
        ∃ c chain', r = .ok c ∧ c ≠ 0 ∧ fp' = fp.goesOn c ∧
          chain'[fp.fptr / ss / vol.csize]? = some c ∧ Progress vol s s' chain chain' ∧
          Holds vol s' (fp.goesOn c) chain' known) := by
  have hsmall := vol.nFatent_lt
  -- all but the first cluster of a file that has one is left to `create_chain`
  have hcreated : ∀ clst, Before chain (fp.fptr / ss / vol.csize) clst → ∃ s' v,
      createChain faults vol.toGeometry s clst = some (s', v) ∧
        Next faults vol s fp chain known (fp.fptr / ss / vol.csize) s' v :=
    fun clst hbefore => createNext_spec faults h.toHolds hm hbefore
  have hcases : (∃ s' v, (if fp.fptr = 0 then
      if fp.sclust = 0 then createChain faults vol.toGeometry s 0 else some (s, fp.sclust)
      else createChain faults vol.toGeometry s fp.clust) = some (s', v) ∧
        Next faults vol s fp chain known (fp.fptr / ss / vol.csize) s' v) := by
    by_cases hzero : fp.fptr = 0
    · rw [if_pos hzero]
      by_cases hnone : fp.sclust = 0
      · rw [if_pos hnone]
        apply hcreated
        refine .inl ⟨by rw [hzero, Nat.zero_div, Nat.zero_div], ?_, rfl⟩
        by_contra hne
        have := (h.first hne).2
        omega
      · rw [if_neg hnone]
        have hne : chain ≠ [] := by
          rintro rfl
          exact hnone h.start
        obtain ⟨hfirst, hrange⟩ := h.first hne
        refine ⟨s, fp.sclust, rfl, .found hrange ?_
          (.refl hm.coherent chain) (h.toHolds.goesOn (List.mem_of_getElem? hfirst))⟩
        rw [hzero, Nat.zero_div, Nat.zero_div]
        exact hfirst
    · rw [if_neg hzero]
      exact hcreated _ (.inr (h.boundary (by omega) hstart hboundary))
  obtain ⟨s', v, hcall, hnext⟩ := hcases
  unfold writeCluster
  dsimp only
  rw [hcall, Option.map_some]
  cases hnext with
  | failed hv hfaulty hframe =>
    rcases hv with rfl | rfl
    · exact ⟨_, _, _, rfl, .inl ⟨.intErr, rfl, by simp, hfaulty, hframe⟩⟩
    · exact ⟨_, _, _, rfl, .inl ⟨.diskErr, rfl, by simp, hfaulty, hframe⟩⟩
  | full _ hfull hkept hstays =>
    exact ⟨_, _, _, rfl, .inr (.inl ⟨rfl, rfl, hkept, hstays, hfull⟩)⟩
  | found hrange hcluster hprogress hholds =>
    rw [if_neg (show ¬ v = 0 by omega), if_neg (show ¬ v = 1 by omega),
      if_neg (show ¬ v = diskError by unfold diskError; omega)]
    exact ⟨_, _, _, rfl, .inr (.inr ⟨v, _, rfl, by omega, rfl, hcluster, hprogress, hholds⟩)⟩

/-! The buffer. -/

theorem overwrite_inside {pos : Nat} {bytes : List Byte} (ho : pos ≤ o ∧ o < pos + bytes.length) :
    overwrite known pos bytes o = bytes[o - pos]? := if_pos ho

theorem overwrite_outside {pos : Nat} {bytes : List Byte} (ho : o < pos ∨ pos + bytes.length ≤ o) :
    overwrite known pos bytes o = known o := if_neg (by omega)

/-- The bytes that are put into the sector in the buffer. -/
theorem Holds.fit {wbuff : List Byte} (h : Holds vol s fp chain known)
    (hclust : chain[fp.fptr / ss / vol.csize]? = some fp.clust)
    (hdsect : fp.dsect = fileSect vol.toGeometry chain (fp.fptr / ss)) (hpos : 0 < wbuff.length)
    (hlimit : fp.fptr + wbuff.length < 2 ^ 32) :
    0 < (fp.fit wbuff).2 ∧ (fp.fit wbuff).2 ≤ wbuff.length ∧ Steady fp (fp.fit wbuff).1 ∧
      FileInv vol s { (fp.fit wbuff).1 with fptr := fp.fptr + (fp.fit wbuff).2 } chain
        (overwrite known fp.fptr (wbuff.take (fp.fit wbuff).2)) := by
  have hmod : fp.fptr % ss < ss := Nat.mod_lt _ (by decide)
  unfold Fil.fit
  dsimp only
  obtain ⟨n, hn⟩ : ∃ n, (if wbuff.length < ss - fp.fptr % ss then wbuff.length
    else ss - fp.fptr % ss) = n := ⟨_, rfl⟩
  rw [hn]
  have hbounds : 0 < n ∧ n ≤ wbuff.length ∧ fp.fptr % ss + n ≤ ss := by
    rw [← hn]
    split <;> omega
  have htake : (wbuff.take n).length = n := List.length_take_of_le hbounds.2.1
  have hsector := sector_of_cluster hclust
  have hbytes : ss * (fp.fptr / ss) + fp.fptr % ss = fp.fptr := Nat.div_add_mod _ _
  have hroom : ss * (fp.fptr / ss + 1) ≤ ss * (chain.length * vol.csize) :=
    Nat.mul_le_mul_left _ hsector
  rw [Nat.mul_succ] at hroom
  have hold := h.room
  have hlimit' := h.limit
  refine ⟨hbounds.1, hbounds.2.1, ⟨rfl, rfl, rfl, rfl, rfl, rfl⟩, ⟨h.linked, h.nodup, h.start,
    ?_, ?_, fun _ => ⟨_, hsector, hdsect⟩, ?_, ?_⟩, ?_, ?_⟩
  · unfold Fil.extent at *
    dsimp only
    omega
  · unfold Fil.extent at *
    dsimp only
    omega
  · intro o b ho hknown hhere
    unfold Fil.extent at ho
    dsimp only at ho hhere ⊢
    have hlt : o / ss < chain.length * vol.csize := by
      apply Nat.div_lt_of_lt_mul
      unfold Fil.extent at hold
      omega
    rw [hdsect] at hhere
    have hsame := h.clusters.inj hsector hlt hhere
    by_cases hin : fp.fptr ≤ o ∧ o < fp.fptr + n
    · rw [overwrite_inside (by rw [htake]; exact hin)] at hknown
      obtain ⟨i, rfl⟩ := Nat.exists_eq_add_of_le hin.1
      rw [Nat.add_sub_cancel_left] at hknown
      obtain ⟨hi, hget⟩ := List.getElem?_eq_some_iff.mp hknown
      rw [(sector_same (by omega)).2, write_inside hi, hget]
    · rw [overwrite_outside (by rw [htake]; omega)] at hknown
      rw [write_outside]
      · apply h.buffered o b _ hknown
        · rw [hdsect, hhere]
        · unfold Fil.extent
          omega
      · rw [htake]
        have ho' : ss * (o / ss) + o % ss = o := Nat.div_add_mod _ _
        rw [← hsame] at ho'
        omega
  · intro o b ho hknown hother
    unfold Fil.extent at ho
    dsimp only at ho hother
    have hne : o / ss ≠ fp.fptr / ss := by
      intro heq
      apply hother rfl
      rw [heq]
      exact hdsect
    have hout : o < fp.fptr ∨ fp.fptr + n ≤ o := by
      by_contra hin
      obtain ⟨i, rfl⟩ := Nat.exists_eq_add_of_le (show fp.fptr ≤ o by omega)
      exact hne (sector_same (by omega)).1
    rw [overwrite_outside (by rw [htake]; exact hout)] at hknown
    apply h.stored o b _ hknown
    · intro _
      exact hother rfl
    · unfold Fil.extent
      omega
  · intro _
    dsimp only
    rw [Nat.add_sub_assoc hbounds.1, (sector_same (by omega)).1]
    exact hclust
  · intro hpartial
    dsimp only at hpartial ⊢
    rw [hdsect]
    congr 1
    unfold ss at *
    omega

/-! Whole sectors. -/

/-- The bytes that are written as whole sectors, and those of a buffer that is refilled. -/
theorem Holds.direct (faults : Faults) {m : Nat} {wbuff : List Byte}
    (h : Holds vol s fp chain known)
    (hclean : fp.dirty = false) (hclear : Clear vol s chain) (hstart : fp.fptr % ss = 0)
    (hclust : chain[fp.fptr / ss / vol.csize]? = some fp.clust) (hm : 0 < m)
    (hinside : fp.fptr / ss % vol.csize + m ≤ vol.csize) (hbytes : ss * m ≤ wbuff.length)
    (hlimit : fp.fptr + wbuff.length < 2 ^ 32) {sect : Nat}
    (hsect : fileSect vol.toGeometry chain (fp.fptr / ss) = sect)
    (hdone : (diskWrite faults s.drive (write (fun _ => 0) 0 wbuff) sect m).2 = true) :
    FileInv vol { s with drive := (diskWrite faults s.drive (write (fun _ => 0) 0 wbuff) sect m).1 }
      { fp with
        buf := if sub32 fp.dsect sect < m then
          load (write (fun _ => 0) 0 wbuff) (ss * sub32 fp.dsect sect) else fp.buf,
        dirty := false, fptr := fp.fptr + ss * m } chain
      (overwrite known fp.fptr (wbuff.take (ss * m))) := by
  have hsector := sector_of_cluster hclust
  obtain ⟨hin, hend⟩ := h.clusters.run hsector hm hinside
  have hapart := fun k (hk : k < chain.length * vol.csize) =>
    h.clusters.outside_run hsector hm hinside hk
  have hdata := h.clusters.data hsector
  rw [hsect] at hin hend hapart hdata
  have hwords := vol.data_fits
  have hroom := h.room
  have hlimit' := h.limit
  have htake : (wbuff.take (ss * m)).length = ss * m := List.length_take_of_le hbytes
  have hstart' : ss * (fp.fptr / ss) = fp.fptr := by
    have := Nat.div_add_mod fp.fptr ss
    omega
  have hfits : ss * (fp.fptr / ss + m) ≤ ss * (chain.length * vol.csize) := by
    obtain ⟨hlast, -⟩ := hin (m - 1) (by omega)
    exact Nat.mul_le_mul_left _ (by omega)
  rw [Nat.mul_add, hstart'] at hfits
  have hpos : 0 < ss * m := Nat.mul_pos (by decide) hm
  -- a byte that is written
  have hwritten : ∀ o b, fp.fptr ≤ o → o < fp.fptr + ss * m →
      overwrite known fp.fptr (wbuff.take (ss * m)) o = some b → ∃ j < m,
        fileSect vol.toGeometry chain (o / ss) = sect + j ∧
          write (fun _ => 0) 0 wbuff (ss * j + o % ss) = b := by
    intro o b hle hlt hknown
    rw [overwrite_inside (by rw [htake]; exact ⟨hle, hlt⟩)] at hknown
    obtain ⟨i, rfl⟩ := Nat.exists_eq_add_of_le hle
    rw [Nat.add_sub_cancel_left, List.getElem?_take_of_lt (by omega)] at hknown
    have hj : i / ss < m := Nat.div_lt_of_lt_mul (by omega)
    have hdiv : (fp.fptr + i) / ss = fp.fptr / ss + i / ss := by
      unfold ss at *
      omega
    have hmod : (fp.fptr + i) % ss = i % ss := by
      unfold ss at *
      omega
    refine ⟨i / ss, hj, by rw [hdiv, (hin _ hj).2], ?_⟩
    rw [hmod, Nat.div_add_mod]
    unfold write
    rw [if_pos (Nat.zero_le i), Nat.sub_zero, hknown, Option.getD_some]
  -- the sector of a byte that is not
  have hother : ∀ o, o / ss < chain.length * vol.csize → (o < fp.fptr ∨ fp.fptr + ss * m ≤ o) →
      fileSect vol.toGeometry chain (o / ss) < sect ∨
        sect + m ≤ fileSect vol.toGeometry chain (o / ss) := by
    intro o ho hout
    apply hapart _ ho
    rw [← hstart', ← Nat.mul_add] at hout
    rcases hout with hbelow | habove
    · exact .inl (Nat.div_lt_of_lt_mul hbelow)
    · refine .inr ((Nat.le_div_iff_mul_le (by decide)).mpr ?_)
      rwa [Nat.mul_comm]
  refine ⟨⟨?_, h.nodup, h.start, ?_, ?_, fun hdirty => (by cases hdirty), ?_, ?_⟩, ?_, ?_⟩
  · exact h.linked.congr fun c hcm => writeData_entry faults s _ h.clusters
      (fun j hj => ⟨_, (hin j hj).1, (hin j hj).2.symm⟩) (h.linked.2 c hcm).2
  · unfold Fil.extent at *
    dsimp only
    omega
  · unfold Fil.extent at *
    dsimp only
    omega
  · intro o b ho hknown hhere
    unfold Fil.extent at ho hroom
    dsimp only at ho hhere ⊢
    have hlt : o / ss < chain.length * vol.csize := Nat.div_lt_of_lt_mul (by omega)
    by_cases hout : o < fp.fptr ∨ fp.fptr + ss * m ≤ o
    · rw [overwrite_outside (by rw [htake]; exact hout)] at hknown
      have hsector' := hother o hlt hout
      have hdata' := h.clusters.data hlt
      rw [if_neg]
      · exact h.buffered o b (by unfold Fil.extent; omega) hknown hhere
      · rw [hhere, sub32_inside (by omega) (by omega)]
        omega
    · obtain ⟨j, hj, hplace, hbyte⟩ := hwritten o b (by omega) (by omega) hknown
      rw [hhere, hplace, sub32_add (by omega), if_pos hj]
      exact hbyte
  · intro o b ho hknown _
    unfold Fil.extent at ho hroom
    dsimp only at ho
    have hlt : o / ss < chain.length * vol.csize := Nat.div_lt_of_lt_mul (by omega)
    have hmod : o % ss < ss := Nat.mod_lt _ (by decide)
    by_cases hout : o < fp.fptr ∨ fp.fptr + ss * m ≤ o
    · rw [overwrite_outside (by rw [htake]; exact hout)] at hknown
      rw [writeData_outside (byte_apart (hother o hlt hout) hmod)]
      exact h.stored o b (by unfold Fil.extent; omega) hknown
        fun hdirty => by cases hclean.symm.trans hdirty
    · obtain ⟨j, hj, hplace, hbyte⟩ := hwritten o b (by omega) (by omega) hknown
      have hupper : ss * (j + 1) ≤ ss * m := Nat.mul_le_mul_left _ hj
      rw [Nat.mul_succ] at hupper
      rw [hplace, Nat.mul_add, Nat.add_assoc, writeData_inside hclear h.clusters
        (fun j hj => ⟨_, (hin j hj).1, (hin j hj).2.symm⟩) hdone (by omega)]
      exact hbyte
  · intro _
    dsimp only
    have hlast : (fp.fptr + ss * m - 1) / ss = fp.fptr / ss + (m - 1) := by
      unfold ss at *
      omega
    rw [hlast, div_add_inside (by omega)]
    exact hclust
  · intro hpartial
    exact absurd (by dsimp only; unfold ss at *; omega) hpartial

theorem writeSectors_spec {csect cc : Nat} {wbuff : List Byte} {r : Round}
    (h : Holds vol s fp chain known) (hclean : fp.dirty = false) (hc : Coherent s)
    (hclear : Clear vol s chain) (hstart : fp.fptr % ss = 0)
    (hcsect : csect = fp.fptr / ss % vol.csize)
    (hclust : chain[fp.fptr / ss / vol.csize]? = some fp.clust) (hcc : 0 < cc)
    (hbytes : ss * cc ≤ wbuff.length) (hlimit : fp.fptr + wbuff.length < 2 ^ 32)
    (hcall : writeSectors faults vol.toGeometry s fp wbuff csect
      (fileSect vol.toGeometry chain (fp.fptr / ss)) cc = (s', fp', r)) :
    Progress vol s s' chain chain ∧ ((∃ n, r = .wrote n ∧ 0 < n ∧ n ≤ wbuff.length ∧
      Steady fp fp' ∧ FileInv vol s' { fp' with fptr := fp.fptr + n } chain
        (overwrite known fp.fptr (wbuff.take n))) ∨ r = .error .diskErr ∧ Faulty faults) := by
  have hmod : fp.fptr / ss % vol.csize < vol.csize := Nat.mod_lt _ vol.csize_pos
  have hsector := sector_of_cluster hclust
  unfold writeSectors at hcall
  dsimp only at hcall
  obtain ⟨m, hm⟩ : ∃ m, (if vol.csize < csect + cc then vol.csize - csect else cc) = m := ⟨_, rfl⟩
  have hbounds : 0 < m ∧ m ≤ cc ∧ fp.fptr / ss % vol.csize + m ≤ vol.csize := by
    rw [← hm]
    split <;> omega
  obtain ⟨hin, -⟩ := h.clusters.run hsector hbounds.1 hbounds.2.2
  have hsects : ∀ j < m, ∃ k < chain.length * vol.csize,
      fileSect vol.toGeometry chain (fp.fptr / ss) + j = fileSect vol.toGeometry chain k :=
    fun j hj => ⟨_, (hin j hj).1, (hin j hj).2.symm⟩
  rw [hm] at hcall
  have hprogress := (writeData_frame faults (write (fun _ => 0) 0 wbuff) hc hclear h.clusters
    hsects).progress fun c hlt => writeData_entry faults s _ h.clusters hsects hlt
  split at hcall
  next hfailed =>
    cases hcall
    exact ⟨hprogress, .inr ⟨rfl, diskWrite_failed (by simpa using hfailed)⟩⟩
  next hwritten =>
    have hle : ss * m ≤ ss * cc := Nat.mul_le_mul_left _ hbounds.2.1
    have hinv := h.direct faults hclean hclear hstart hclust hbounds.1 hbounds.2.2
      (hle.trans hbytes) hlimit rfl (by simpa using hwritten)
    have hfp : (if sub32 fp.dsect (fileSect vol.toGeometry chain (fp.fptr / ss)) < m then
        { fp with
          buf := load (write (fun _ => 0) 0 wbuff)
            (ss * sub32 fp.dsect (fileSect vol.toGeometry chain (fp.fptr / ss))),
          dirty := false } else fp) = { fp with
        buf := if sub32 fp.dsect (fileSect vol.toGeometry chain (fp.fptr / ss)) < m then
          load (write (fun _ => 0) 0 wbuff)
            (ss * sub32 fp.dsect (fileSect vol.toGeometry chain (fp.fptr / ss))) else fp.buf,
        dirty := false } := by
      split
      · rfl
      · rw [← hclean]
    rw [hfp] at hcall
    cases hcall
    exact ⟨hprogress, .inl ⟨_, rfl, Nat.mul_pos (by decide) hbounds.1, hle.trans hbytes,
      ⟨rfl, rfl, rfl, rfl, rfl, rfl⟩, hinv⟩⟩

/-! The loop. -/

/-- At the growing edge the buffer takes a sector that has no bytes of the file yet. -/
theorem Holds.atEdge (h : Holds vol s fp chain known) (hclean : fp.dirty = false)
    (hstart : fp.fptr % ss = 0) (hsector : fp.fptr / ss < chain.length * vol.csize)
    (hedge : fp.fsize ≤ fp.fptr) :
    Holds vol s { fp with dsect := fileSect vol.toGeometry chain (fp.fptr / ss) } chain known := by
  refine ⟨h.linked, h.nodup, h.start, h.room, h.limit,
    fun hdirty => (by cases hclean.symm.trans hdirty), ?_, ?_⟩
  · intro o b ho _ hhere
    have hsame := h.clusters.inj hsector (h.sector_lt ho) hhere
    unfold Fil.extent at ho
    dsimp only at ho
    unfold ss at *
    omega
  · intro o b ho hknown _
    exact h.stored o b ho hknown fun hdirty => by cases hclean.symm.trans hdirty

/-- A turn of the loop that has written `n` bytes. -/
structure Wrote (vol : Volume) (s s' : FatFs) (fp fp' : Fil) (chain chain' : List Nat)
    (known : Nat → Option Byte) (wbuff : List Byte) (n : Nat) : Prop where
  progress : Progress vol s s' chain chain'
  pos : 0 < n
  le : n ≤ wbuff.length
  faRead : fp'.faRead = fp.faRead
  faWrite : fp'.faWrite = fp.faWrite
  err : fp'.err = fp.err
  fptr : fp'.fptr = fp.fptr
  fsize : fp'.fsize = fp.fsize
  inv : FileInv vol s' { fp' with fptr := fp.fptr + n } chain'
    (overwrite known fp.fptr (wbuff.take n))

theorem writeSector_spec {csect : Nat} {wbuff : List Byte} {r : Round}
    (h : Holds vol s fp chain known) (hc : Coherent s) (hclear : Clear vol s chain)
    (hstart : fp.fptr % ss = 0) (hcsect : csect = fp.fptr / ss % vol.csize)
    (hclust : chain[fp.fptr / ss / vol.csize]? = some fp.clust) (hpos : 0 < wbuff.length)
    (hlimit : fp.fptr + wbuff.length < 2 ^ 32)
    (hcall : writeSector faults vol.toGeometry s fp wbuff csect = (s', fp', r)) :
    (∃ n, r = .wrote n ∧ Wrote vol s s' fp fp' chain chain known wbuff n) ∨
      r = .error .diskErr ∧ Faulty faults ∧ Frame vol s s' chain := by
  have hsector := sector_of_cluster hclust
  unfold writeSector at hcall
  obtain ⟨s₁, fp₁, r₁, hflush⟩ : ∃ s₁ fp₁ r₁, flushBuffer faults s fp = (s₁, fp₁, r₁) :=
    ⟨_, _, _, rfl⟩
  rw [hflush] at hcall
  dsimp only at hcall
  obtain ⟨hprogress, ⟨rfl, rfl, hholds⟩ | ⟨rfl, hfaulty⟩⟩ := flushBuffer_spec h hc hclear hflush
  · obtain ⟨hsect, hword⟩ := hholds.sect_eq hclust
    have hc₁ := hprogress.frame.coherent
    have hclear₁ := hprogress.clear hclear
    rw [if_neg (by simp), if_neg hsect, hcsect, hword] at hcall
    split at hcall
    next hcc =>
      have hbytes : ss * (wbuff.length / ss) ≤ wbuff.length := Nat.mul_div_le _ _
      obtain ⟨hprogress', hr⟩ := writeSectors_spec hholds rfl hc₁ hclear₁ hstart rfl hclust
        (Nat.pos_of_ne_zero hcc) hbytes hlimit hcall
      have hboth := hprogress.trans hprogress'
      rcases hr with ⟨n, rfl, hn, hle, hsteady, hinv⟩ | ⟨rfl, hfaulty⟩
      · exact .inl ⟨n, rfl, hboth, hn, hle, hsteady.faRead, hsteady.faWrite, hsteady.err,
          hsteady.fptr, hsteady.fsize, hinv⟩
      · exact .inr ⟨rfl, hfaulty, hboth.frame⟩
    next =>
      obtain ⟨s₂, fp₂, r₂, hfill⟩ : ∃ s₂ fp₂ r₂,
        (if fp.dsect ≠ fileSect vol.toGeometry chain (fp.fptr / ss) ∧ fp.fptr < fp.fsize then
          fillBuffer faults s₁ { fp with dirty := false }
            (fileSect vol.toGeometry chain (fp.fptr / ss))
          else (s₁, { fp with dirty := false }, .ok)) = (s₂, fp₂, r₂) := ⟨_, _, _, rfl⟩
      rw [hfill] at hcall
      -- however the buffer got its sector, it can take the bytes
      have hbuffer : Progress vol s₁ s₂ chain chain ∧
          (r₂ = .ok ∧ (∃ buf, fp₂ = { fp with dirty := false, buf := buf }) ∧
            Holds vol s₂ { fp₂ with dsect := fileSect vol.toGeometry chain (fp.fptr / ss) } chain
              known ∨ r₂ = .diskErr ∧ Faulty faults) := by
        split at hfill
        next =>
          obtain ⟨hprogress', hr⟩ := fillBuffer_spec hholds rfl hc₁ hclear₁ hsector hfill
          refine ⟨hprogress', hr.imp_left ?_⟩
          rintro ⟨rfl, ⟨buf, rfl⟩, hholds'⟩
          exact ⟨rfl, ⟨buf, rfl⟩, hholds'⟩
        next hnofill =>
          cases hfill
          refine ⟨.refl hc₁ chain, .inl ⟨rfl, ⟨fp.buf, rfl⟩, ?_⟩⟩
          by_cases hthere : fp.dsect = fileSect vol.toGeometry chain (fp.fptr / ss)
          · rw [← hthere]
            exact hholds
          · exact hholds.atEdge rfl hstart hsector (show fp.fsize ≤ fp.fptr by omega)
      obtain ⟨hprogress', ⟨rfl, ⟨buf, rfl⟩, hholds'⟩ | ⟨rfl, hfaulty⟩⟩ := hbuffer
      · rw [if_neg (by simp)] at hcall
        cases hcall
        obtain ⟨hn, hle, hsteady, hinv⟩ := hholds'.fit hclust rfl hpos hlimit
        exact .inl ⟨_, rfl, hprogress.trans hprogress', hn, hle, hsteady.faRead, hsteady.faWrite,
          hsteady.err, hsteady.fptr, hsteady.fsize, hinv⟩
      · rw [if_pos (by simp)] at hcall
        cases hcall
        exact .inr ⟨rfl, hfaulty, (hprogress.trans hprogress').frame⟩
  · rw [if_pos (by simp)] at hcall
    cases hcall
    exact .inr ⟨rfl, hfaulty, hprogress.frame⟩

/-- No cluster is free. -/
def Full (vol : Volume) (s : FatFs) : Prop :=
  ∀ c, 2 ≤ c → c < vol.nFatent → fatEntry vol.toGeometry s.view c ≠ 0

theorem Kept.full (hkept : Kept vol.toGeometry s s') (hfull : Full vol s) : Full vol s' := by
  intro c hc hlt
  rw [hkept.entry hlt]
  exact hfull c hc hlt

theorem writeRound_spec (faults : Faults) {wbuff : List Byte} (h : FileInv vol s fp chain known)
    (hm : Mounted faults vol s chain) (hpos : 0 < wbuff.length)
    (hlimit : fp.fptr + wbuff.length < 2 ^ 32) :
    ∃ s' fp' r, writeRound faults vol.toGeometry s fp wbuff = some (s', fp', r) ∧
      ((∃ n chain', r = .wrote n ∧ Wrote vol s s' fp fp' chain chain' known wbuff n) ∨
        (r = .full ∧ fp' = fp ∧ Kept vol.toGeometry s s' ∧ Stays vol s s' ∧ Full vol s) ∨
        ∃ res, r = .error res ∧ res ≠ .ok ∧ Faulty faults ∧ Frame vol s s' chain) := by
  unfold writeRound
  split
  next hstart =>
    dsimp only
    rw [csect_eq]
    by_cases hboundary : fp.fptr / ss % vol.csize = 0
    · rw [if_pos hboundary]
      obtain ⟨s₁, fp₁, r₁, hcluster, hr⟩ := writeCluster_spec faults h hm hstart hboundary
      rw [hcluster, Option.map_some]
      refine ⟨_, _, _, rfl, ?_⟩
      rcases hr with ⟨res, rfl, hres, hfaulty, hframe⟩ | ⟨rfl, rfl, hkept, hstays, hfull⟩ |
        ⟨c, chain', rfl, hne, rfl, hclust, hprogress, hholds⟩
      · exact .inr (.inr ⟨res, rfl, hres, hfaulty, hframe⟩)
      · dsimp only
        rw [if_pos ⟨hboundary, rfl⟩]
        exact .inr (.inl ⟨rfl, rfl, hkept, hstays, hfull⟩)
      · dsimp only
        rw [if_neg fun hzero => hne hzero.2]
        rcases writeSector_spec hholds hprogress.frame.coherent (hprogress.clear hm.clear) hstart
          rfl hclust hpos hlimit rfl with ⟨n, hr, hwrote⟩ | ⟨hr, hfaulty, hframe⟩
        · exact .inl ⟨n, chain', hr, hprogress.trans hwrote.progress, hwrote.pos, hwrote.le,
            hwrote.faRead, hwrote.faWrite, hwrote.err, hwrote.fptr, hwrote.fsize, hwrote.inv⟩
        · exact .inr (.inr ⟨.diskErr, hr, by simp, hfaulty, hprogress.frame.trans hframe
            fun c hcm => (hprogress.grown c hcm).imp_right And.right⟩)
    · rw [if_neg hboundary, Option.map_some]
      dsimp only
      rw [if_neg fun hzero => hboundary hzero.1]
      refine ⟨_, _, _, rfl, ?_⟩
      rcases writeSector_spec h.toHolds hm.coherent hm.clear hstart rfl
        (h.inside hstart hboundary) hpos hlimit rfl with ⟨n, hr, hwrote⟩ | ⟨hr, hfaulty, hframe⟩
      · exact .inl ⟨n, chain, hr, hwrote⟩
      · exact .inr (.inr ⟨.diskErr, hr, by simp, hfaulty, hframe⟩)
  next hinside =>
    obtain ⟨hn, hle, hsteady, hinv⟩ :=
      h.toHolds.fit (h.clust_inside hinside) (h.sector hinside) hpos hlimit
    exact ⟨_, _, _, rfl, .inl ⟨_, chain, rfl, .refl hm.coherent chain, hn, hle,
      hsteady.faRead, hsteady.faWrite, hsteady.err, hsteady.fptr, hsteady.fsize, hinv⟩⟩

theorem writeLoop_spec (faults : Faults) (fuel : Nat) (wbuff : List Byte) (bw : Nat) (s : FatFs)
    (fp : Fil) (chain : List Nat) (known : Nat → Option Byte) (h : FileInv vol s fp chain known)
    (hm : Mounted faults vol s chain) (hlimit : fp.fptr + wbuff.length < 2 ^ 32)
    (hfuel : wbuff.length < fuel) :
    ∃ s' fp' r n, writeLoop faults vol.toGeometry fuel s fp wbuff bw = some (s', fp', r, bw + n) ∧
      ((r = .ok ∧ n ≤ wbuff.length ∧ (n < wbuff.length → Full vol s') ∧ SameFile fp fp' ∧
          fp'.fptr = fp.fptr + n ∧ fp'.fsize = fp.fsize ∧ ∃ chain',
            Progress vol s s' chain chain' ∧
              FileInv vol s' fp' chain' (overwrite known fp.fptr (wbuff.take n))) ∨
        r ≠ .ok ∧ fp'.err = r ∧ Faulty faults ∧ Frame vol s s' chain) := by
  induction fuel generalizing wbuff bw s fp chain known with
  | zero => omega
  | succ fuel ih =>
    unfold writeLoop
    split
    next hzero =>
      refine ⟨s, fp, .ok, 0, rfl, .inl ⟨rfl, by omega, by omega, ⟨rfl, rfl, rfl⟩, rfl, rfl, chain,
        .refl hm.coherent chain, ?_⟩⟩
      rw [List.take_zero, overwrite_nil]
      exact h
    next hmore =>
      obtain ⟨s₁, fp₁, r₁, hround, hr⟩ :=
        writeRound_spec faults h hm (Nat.pos_of_ne_zero hmore) hlimit
      rw [hround]
      rcases hr with ⟨n, chain₁, rfl, hwrote⟩ | ⟨rfl, rfl, hkept, hstays, hfull⟩ |
        ⟨res, rfl, hres, hfaulty, hframe⟩
      · dsimp only
        have hle := hwrote.le
        have hpos := hwrote.pos
        rw [hwrote.fptr]
        obtain ⟨s₂, fp₂, r₂, m, hloop, hr⟩ := ih (wbuff.drop n) (bw + n) s₁
          { fp₁ with fptr := fp.fptr + n } chain₁ _ hwrote.inv (hwrote.progress.mounted hm)
          (by rw [List.length_drop]; dsimp only; omega) (by rw [List.length_drop]; omega)
        refine ⟨s₂, fp₂, r₂, n + m, by rw [hloop, Nat.add_assoc], ?_⟩
        rw [List.length_drop] at hr
        dsimp only at hr
        rcases hr with ⟨rfl, hm', hfull, hsame, hfptr, hfsize, chain₂, hprogress, hinv⟩ |
          ⟨hres, herr, hfaulty, hframe⟩
        · refine .inl ⟨rfl, by omega, fun hlt => hfull (by omega),
            ⟨hsame.faRead.trans hwrote.faRead, hsame.faWrite.trans hwrote.faWrite,
              hsame.err.trans hwrote.err⟩, by omega, hfsize.trans hwrote.fsize, chain₂,
            hwrote.progress.trans hprogress, ?_⟩
          have htake : (wbuff.take n).length = n := List.length_take_of_le hle
          have happend := overwrite_append known fp.fptr (wbuff.take n) ((wbuff.drop n).take m)
          rw [htake, ← List.take_add] at happend
          rw [← happend]
          exact hinv
        · exact .inr ⟨hres, herr, hfaulty, hwrote.progress.frame.trans hframe
            fun c hcm => (hwrote.progress.grown c hcm).imp_right And.right⟩
      · refine ⟨s₁, fp₁, .ok, 0, rfl, .inl ⟨rfl, Nat.zero_le _, fun _ => hkept.full hfull,
          ⟨rfl, rfl, rfl⟩, rfl, rfl, chain, hkept.progress hstays chain, ?_⟩⟩
        rw [List.take_zero, overwrite_nil]
        exact ⟨h.toHolds.kept hkept, h.cluster, h.sector⟩
      · exact ⟨s₁, _, res, 0, rfl, .inr ⟨hres, rfl, hfaulty, hframe⟩⟩

/-- The file size is set and the end of the file is where it was. -/
theorem FileInv.sized {size : Nat} {written : Bool} (h : FileInv vol s fp chain known)
    (hsize : max fp.fptr size = fp.extent) :
    FileInv vol s { fp with fsize := size, written := written } chain known := by
  have hextent : Fil.extent { fp with fsize := size, written := written } = fp.extent := hsize
  refine ⟨⟨h.linked, h.nodup, h.start, ?_, ?_, h.dirty, ?_, ?_⟩, h.cluster, h.sector⟩
  · rw [hextent]
    exact h.room
  · rw [hextent]
    exact h.limit
  · rw [hextent]
    exact h.buffered
  · rw [hextent]
    exact h.stored

/-- `f_write` to a file that is open for writing. -/
theorem fWrite_spec (faults : Faults) (buff : List Byte) (h : FileInv vol s fp chain known)
    (hm : Mounted faults vol s chain) (herr : fp.err = .ok) (hmode : fp.faWrite = true)
    (hptr : fp.fptr ≤ fp.fsize) (hbuff : buff.length < 2 ^ 32) :
    ∃ s' fp' r n, fWrite faults vol.toGeometry true s fp buff = some (s', fp', r, n) ∧
      ((r = .ok ∧ n ≤ buff.length ∧
          (n < buff.length → Full vol s' ∨ 2 ^ 32 ≤ fp.fptr + buff.length) ∧
          SameFile fp fp' ∧ fp'.fptr = fp.fptr + n ∧ fp'.fsize = max fp.fsize (fp.fptr + n) ∧
          ∃ chain', Progress vol s s' chain chain' ∧
            FileInv vol s' fp' chain' (overwrite known fp.fptr (buff.take n))) ∨
        r ≠ .ok ∧ fp'.err = r ∧ Faulty faults ∧ Frame vol s s' chain) := by
  have hextent := h.limit
  unfold Fil.extent at hextent
  unfold fWrite
  rw [herr, hmode]
  dsimp only
  rw [if_neg (by simp), if_neg (by simp), if_neg (by simp)]
  obtain ⟨wbuff, hwbuff⟩ : ∃ wbuff, (if word (fp.fptr + buff.length) < fp.fptr then [] else buff) =
    wbuff := ⟨_, rfl⟩
  have hcases : wbuff = buff ∧ fp.fptr + buff.length < 2 ^ 32 ∨
      wbuff = [] ∧ 2 ^ 32 ≤ fp.fptr + buff.length := by
    rw [← hwbuff]
    unfold word
    split
    · exact .inr ⟨rfl, by omega⟩
    · exact .inl ⟨rfl, by omega⟩
  rw [hwbuff]
  obtain ⟨s', fp', r, n, hloop, hr⟩ := writeLoop_spec faults (wbuff.length + 1) wbuff 0 s fp chain
    known h hm (by rcases hcases with ⟨rfl, hlt⟩ | ⟨rfl, -⟩ <;> simp <;> omega) (by omega)
  rw [hloop, Nat.zero_add]
  rcases hr with ⟨rfl, hn, hfull, hsame, hfptr, hfsize, chain', hprogress, hinv⟩ |
    ⟨hres, herr, hfaulty, hframe⟩
  · refine ⟨s', _, .ok, n, rfl, .inl ⟨rfl, ?_, ?_, ⟨hsame.faRead, hsame.faWrite, hsame.err⟩, hfptr,
      ?_, chain', hprogress, ?_⟩⟩
    · rcases hcases with ⟨rfl, -⟩ | ⟨rfl, -⟩
      · exact hn
      · simp at hn
        omega
    · intro hlt
      rcases hcases with ⟨rfl, -⟩ | ⟨-, hlarge⟩
      · exact .inl (hfull hlt)
      · exact .inr hlarge
    · dsimp only
      split <;> omega
    · have hknown : wbuff.take n = buff.take n := by
        rcases hcases with ⟨rfl, -⟩ | ⟨rfl, -⟩
        · rfl
        · simp at hn
          subst hn
          rfl
      rw [hknown] at hinv
      apply hinv.sized
      unfold Fil.extent
      split <;> omega
  · cases r with
    | ok => exact absurd rfl hres
    | _ => exact ⟨s', fp', _, n, rfl, .inr ⟨hres, herr, hfaulty, hframe⟩⟩

end PosixRtos.Fs
