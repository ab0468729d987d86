import PosixRtos.Fs.Seeking

/-! `f_truncate` ends the file at the file pointer and gives the clusters behind it back. -/
namespace PosixRtos.Fs

open PosixRtos.Library.ByteMemory PosixRtos.Library.Overlay PosixRtos.Library.Chains
open PosixRtos.Heap (word sub32)

variable {faults : Faults} {vol : Volume} {s s' : FatFs} {fp fp' : Fil}
variable {chain : List Nat} {known : Nat → Option Byte} {c clst : Nat}

/-- What is known of the file when it has been cut at `pos`. -/
def cutAt (known : Nat → Option Byte) (pos : Nat) : Nat → Option Byte :=
  fun o => if o < pos then known o else none

/-- The clusters `rest` have been given back and the file has kept `front`. -/
structure Cut (vol : Volume) (s s' : FatFs) (front rest : List Nat) : Prop
    extends Limited vol s s' (front ++ rest) where
  linked : Chain vol s' front
  ones : NoOnes vol s → NoOnes vol s'

theorem Removed.ones {cs : List Nat} (h : Removed vol s s' cs) (hones : NoOnes vol s) :
    NoOnes vol s' := by
  intro c hc hlt
  rw [h.entries c hc hlt]
  split
  · decide
  · exact hones c hc hlt

/-- The chain is cut behind cluster `clst`. -/
theorem cutChain_spec (faults : Faults) {front rest : List Nat} {ncl : Nat} {r : FResult}
    (hc : Coherent s) (hchain : Chain vol s (front ++ clst :: ncl :: rest))
    (hnodup : (front ++ clst :: ncl :: rest).Nodup)
    (hput : putFat faults vol.toGeometry s clst 0x0fffffff = (s', r)) :
    Limited vol s s' (front ++ clst :: ncl :: rest) ∧ (r = .diskErr ∧ Faulty faults ∨ r = .ok ∧
      ∃ s'' r', removeChain faults vol.toGeometry s' ncl = some (s'', r') ∧
        Limited vol s s'' (front ++ clst :: ncl :: rest) ∧
        (r' = .diskErr ∧ Faulty faults ∨
          r' = .ok ∧ Cut vol s s'' (front ++ [clst]) (ncl :: rest))) := by
  have hrange := hchain.2 clst (by simp)
  have hends := vol.ends_known
  have hclusters := vol.clusters
  obtain ⟨hchanged, hr⟩ := putFat_spec hc hrange.1 hrange.2 (by decide) hput
  have hlimited : Limited vol s s' (front ++ clst :: ncl :: rest) :=
    hchanged.limited (.inl (by simp))
  refine ⟨hlimited, ?_⟩
  rcases hr with ⟨rfl, hlast⟩ | ⟨rfl, hfaulty, -⟩
  · rw [lastLink_stored] at hlast
    obtain ⟨hfront, hback, hdisjoint⟩ := List.nodup_append.mp hnodup
    obtain ⟨hclst, hback'⟩ := List.nodup_cons.mp hback
    have hothers : ∀ c ∈ front ++ ncl :: rest, fatEntry vol.toGeometry s'.view c =
        fatEntry vol.toGeometry s.view c := by
      intro c hcm
      have hrange' := hchain.2 c (by
        rcases List.mem_append.mp hcm with hin | hin
        · simp [hin]
        · exact List.mem_append_right _ (List.mem_cons_of_mem _ hin))
      apply hchanged.others c hrange'.2
      rintro rfl
      rcases List.mem_append.mp hcm with hin | hin
      · exact hdisjoint c hin c List.mem_cons_self rfl
      · exact hclst hin
    have hrest : Chain vol s' (ncl :: rest) := by
      refine Chain.congr ⟨hchain.1.drop.tail, fun c hcm => hchain.2 c ?_⟩
        fun c hcm => hothers c (List.mem_append_right _ hcm)
      exact List.mem_append_right _ (List.mem_cons_of_mem _ hcm)
    obtain ⟨s'', r', hremove, hlimited', hr'⟩ : ∃ s'' r',
      removeChain faults vol.toGeometry s' ncl = some (s'', r') ∧ _ :=
      removeChain_spec hchanged.coherent hrest hback'
    have hboth : Limited vol s s'' (front ++ clst :: ncl :: rest) := hlimited.trans
      (hlimited'.mono fun c hcm => List.mem_append_right _ (List.mem_cons_of_mem _ hcm))
    refine .inr ⟨rfl, s'', r', hremove, hboth, hr'.imp_right ?_⟩
    rintro ⟨rfl, hremoved⟩
    -- the clusters in front have kept their entries, but for the last one
    have hkeep : ∀ c ∈ front ++ [clst], fatEntry vol.toGeometry s''.view c =
        fatEntry vol.toGeometry s'.view c := by
      intro c hcm
      have hrange' := hchain.2 c (by
        rcases List.mem_append.mp hcm with hin | hin
        · simp [hin]
        · simp [List.mem_singleton.mp hin])
      rw [hremoved.entries c hrange'.1 hrange'.2, if_neg]
      intro hin
      rcases List.mem_append.mp hcm with hin' | hin'
      · exact hdisjoint c hin' c (List.mem_cons_of_mem _ hin) rfl
      · exact hclst (List.mem_singleton.mp hin' ▸ hin)
    refine ⟨rfl, ⟨hboth.mono (by simp [List.append_assoc]), ⟨?_, ?_⟩, ?_⟩⟩
    · apply hchain.1.cut
      · intro c hcm
        rw [hkeep c (List.mem_append_left _ hcm), hothers c (List.mem_append_left _ hcm)]
      · rw [hkeep clst (by simp), hlast]
        exact hends
    · intro c hcm
      apply hchain.2 c
      rcases List.mem_append.mp hcm with hin | hin
      · simp [hin]
      · simp [List.mem_singleton.mp hin]
    · intro hones
      apply hremoved.ones
      intro c hc2 hlt
      by_cases heq : c = clst
      · rw [heq, hlast]
        omega
      · rw [hchanged.others c hlt heq]
        exact hones c hc2 hlt
  · exact .inl ⟨rfl, hfaulty⟩

/-- What `f_truncate` does to the FAT. -/
theorem truncateChain_spec (faults : Faults) {size : Nat} {written : Bool}
    (h : FileInv vol s fp chain known) (hm : Mounted faults vol s chain)
    (hlt : fp.fptr < fp.fsize) :
    ∃ s' first r, truncateChain faults vol.toGeometry s
        { fp with fsize := size, written := written } =
        some (s', { fp with fsize := size, written := written, sclust := first }, r) ∧
      Stays vol s s' ∧ Limited vol s s' chain ∧
      ((r = .ok ∧ ∃ front rest, chain = front ++ rest ∧ first = front.headD 0 ∧
          Cut vol s s' front rest ∧ fp.fptr ≤ ss * (front.length * vol.csize) ∧
          (0 < fp.fptr → front[(fp.fptr - 1) / ss / vol.csize]? = some fp.clust)) ∨
        r = .diskErr ∧ Faulty faults) := by
  have hroom := h.room
  unfold truncateChain
  by_cases hzero : fp.fptr = 0
  · rw [if_pos hzero]
    obtain ⟨c, cs, rfl⟩ : ∃ c cs, chain = c :: cs := by
      apply List.exists_cons_of_ne_nil
      rintro rfl
      unfold Fil.extent at hroom
      simp at hroom
      omega
    have hstart : fp.sclust = c := h.start
    obtain ⟨s', r, hremove, hlimited, hr⟩ : ∃ s' r,
      removeChain faults vol.toGeometry s c = some (s', r) ∧ _ :=
      removeChain_spec hm.coherent h.linked h.nodup
    dsimp only
    rw [hstart, hremove, Option.map_some]
    refine ⟨s', 0, r, rfl, removeChain_stays hremove, hlimited, ?_⟩
    rcases hr with hfailed | ⟨rfl, hremoved⟩
    · exact .inr hfailed
    · refine .inl ⟨rfl, [], c :: cs, rfl, rfl, ⟨hlimited, ⟨trivial, by simp⟩, hremoved.ones⟩,
        by omega, by omega⟩
  · rw [if_neg hzero]
    have hclust := h.cluster (by omega)
    obtain ⟨hi, hget⟩ := List.getElem?_eq_some_iff.mp hclust
    obtain ⟨i, hidx⟩ : ∃ i, (fp.fptr - 1) / ss / vol.csize = i := ⟨_, rfl⟩
    have hrange := h.linked.2 _ (List.mem_of_getElem? hclust)
    -- the pointer is in the clusters that the file keeps
    have hfits : ∀ front : List Nat, front[(fp.fptr - 1) / ss / vol.csize]? = some fp.clust →
        fp.fptr ≤ ss * (front.length * vol.csize) := by
      intro front hfront
      have hsector := sector_of_cluster hfront
      have hle : ss * ((fp.fptr - 1) / ss + 1) ≤ ss * (front.length * vol.csize) :=
        Nat.mul_le_mul_left _ hsector
      have hmod : (fp.fptr - 1) % ss < ss := Nat.mod_lt _ (by decide)
      have hdiv := Nat.div_add_mod (fp.fptr - 1) ss
      rw [Nat.mul_succ] at hle
      omega
    have hsplit : chain = chain.take i ++ fp.clust :: chain.drop (i + 1) := by
      simp only [hidx] at hget hi
      rw [← hget, List.getElem_cons_drop, List.take_append_drop]
    obtain ⟨s₁, v, hcalled⟩ : ∃ s₁ v, getFat faults vol.toGeometry s fp.clust = (s₁, v) :=
      ⟨_, _, rfl⟩
    have hstays := getFat_stays faults vol s fp.clust
    rw [hcalled] at hstays
    dsimp only at hstays ⊢
    rw [hcalled]
    dsimp only
    obtain ⟨hkept, rfl | ⟨rfl, hfaulty⟩⟩ := getFat_spec hm.coherent hrange.1 hrange.2 hcalled
    · have hlimit := fatEntry_lt vol.toGeometry s.view fp.clust
      have hused := h.linked.entry_cases (List.mem_of_getElem? hclust)
      rw [if_neg (by unfold diskError; omega), if_neg (by omega)]
      cases hdrop : chain.drop (i + 1) with
      | nil =>
        rw [hdrop] at hsplit
        have hend : vol.nFatent ≤ fatEntry vol.toGeometry s.view fp.clust := by
          have hlinked := h.linked.1
          rw [hsplit] at hlinked
          exact hlinked.last
        rw [if_neg (by omega)]
        refine ⟨s₁, fp.sclust, .ok, rfl, hstays, hkept.limited chain, .inl ⟨rfl, chain, [],
          by rw [List.append_nil], h.start, ⟨hkept.limited _, ?_, fun hones =>
            hkept.noOnes_iff.mpr hones⟩, hfits chain hclust, fun _ => hclust⟩⟩
        exact h.linked.congr fun c hcm => hkept.entry (h.linked.2 c hcm).2
      | cons ncl rest =>
        rw [hdrop] at hsplit
        generalize hfront : chain.take i = front at hsplit
        have hlength : front.length = i := by
          rw [← hfront, List.length_take_of_le (by omega)]
        subst hsplit
        have hnext : fatEntry vol.toGeometry s.view fp.clust = ncl := h.linked.1.drop.1
        have hrange' := h.linked.2 ncl (by simp)
        rw [hnext, if_pos hrange'.2]
        obtain ⟨s₂, r₂, hput⟩ : ∃ s₂ r₂, putFat faults vol.toGeometry s₁ fp.clust 0x0fffffff =
          (s₂, r₂) := ⟨_, _, rfl⟩
        have hstays₂ := hstays.trans (putFat_stays faults vol s₁ fp.clust 0x0fffffff)
        rw [hput] at hstays₂ ⊢
        dsimp only at hstays₂ ⊢
        have hchain₁ : Chain vol s₁ (front ++ fp.clust :: ncl :: rest) :=
          h.linked.congr fun c hcm => hkept.entry (h.linked.2 c hcm).2
        obtain ⟨hlimited, hr₂⟩ := cutChain_spec faults hkept.coherent hchain₁ h.nodup hput
        rcases hr₂ with ⟨rfl, hfaulty⟩ | ⟨rfl, s₃, r₃, hremove, hlimited₃, hr₃⟩
        · rw [if_pos (by simp)]
          exact ⟨s₂, fp.sclust, _, rfl, hstays₂, (hkept.limited _).trans hlimited,
            .inr ⟨rfl, hfaulty⟩⟩
        · rw [if_neg (by simp), hremove, Option.map_some]
          refine ⟨s₃, fp.sclust, r₃, rfl, hstays₂.trans (removeChain_stays hremove),
            (hkept.limited _).trans hlimited₃, ?_⟩
          rcases hr₃ with hfailed | ⟨rfl, hcut⟩
          · exact .inr hfailed
          · have hhere : (front ++ [fp.clust])[(fp.fptr - 1) / ss / vol.csize]? =
                some fp.clust := by
              rw [hidx, ← hlength, List.getElem?_append_right le_rfl, Nat.sub_self]
              rfl
            refine .inl ⟨rfl, front ++ [fp.clust], ncl :: rest, by simp, ?_,
              ⟨(hkept.limited _).trans hcut.toLimited, hcut.linked, fun hones =>
                hcut.ones (hkept.noOnes_iff.mpr hones)⟩, hfits _ hhere, fun _ => hhere⟩
            rw [h.start]
            cases front <;> rfl
    · rw [if_pos rfl]
      exact ⟨s₁, fp.sclust, _, rfl, hstays, hkept.limited chain, .inr ⟨rfl, hfaulty⟩⟩

/-- `f_truncate` of a file that is open for writing. -/
theorem fTruncate_spec (faults : Faults) (h : FileInv vol s fp chain known)
    (hm : Mounted faults vol s chain) (herr : fp.err = .ok) (hmode : fp.faWrite = true)
    (hptr : fp.fptr ≤ fp.fsize) :
    ∃ s' fp' r, fTruncate faults vol.toGeometry true s fp = some (s', fp', r) ∧
      ((r = .ok ∧ SameFile fp fp' ∧ fp'.fptr = fp.fptr ∧ fp'.fsize = fp.fptr ∧
          ∃ chain', Progress vol s s' chain chain' ∧
            FileInv vol s' fp' chain' (cutAt known fp.fptr)) ∨
        r ≠ .ok ∧ fp'.err = r ∧ Faulty faults ∧ Frame vol s s' chain) := by
  have hknown : ∀ o b, cutAt known fp.fptr o = some b → o < fp.fptr ∧ known o = some b := by
    intro o b ho
    unfold cutAt at ho
    split at ho
    next hlt => exact ⟨hlt, ho⟩
    next => cases ho
  unfold fTruncate
  rw [if_neg (by simp), if_neg (by simp [herr]), if_neg (by simp [hmode])]
  split
  next hlt =>
    obtain ⟨s₁, first, r₁, hcall, hstays, hlimited, hr₁⟩ := truncateChain_spec faults h hm hlt
    rw [hcall]
    dsimp only
    have hframe : Frame vol s s₁ chain := hlimited.frame hstays fun c hcm => .inl hcm
    have hclear := hframe.clear hm.clear fun c hcm => .inl hcm
    rcases hr₁ with ⟨rfl, front, rest, rfl, rfl, hcut, hfits, hclust⟩ | ⟨rfl, hfaulty⟩
    · rw [if_pos rfl]
      obtain ⟨s₂, fp₂, r₂, hflush⟩ : ∃ s₂ fp₂ r₂, flushBuffer faults s₁ { fp with
        fsize := fp.fptr, written := true, sclust := front.headD 0 } = (s₂, fp₂, r₂) :=
        ⟨_, _, _, rfl⟩
      rw [hflush]
      obtain ⟨hframe₂, hentries, hr₂⟩ :=
        flushBuffer_data hflush h.clusters h.dirty hlimited.coherent hclear
      have hboth := hframe.trans hframe₂ fun c hcm => .inl hcm
      have hinside : ∀ o, o < ss * (front.length * vol.csize) →
          o / ss < front.length * vol.csize := fun o ho => Nat.div_lt_of_lt_mul ho
      dsimp only
      rcases hr₂ with ⟨rfl, rfl, hview⟩ | ⟨rfl, hfaulty⟩
      · rw [if_neg (by simp)]
        refine ⟨_, _, _, rfl, .inl ⟨rfl, ⟨rfl, rfl, rfl⟩, rfl, rfl, front, ⟨hboth,
          fun c hcm => .inl (List.mem_append_left _ hcm), ?_⟩, ⟨⟨?_, ?_, rfl, ?_, ?_,
            fun hdirty => (by cases hdirty), ?_, ?_⟩, hclust, ?_⟩⟩⟩
        · intro hones c hc hlt'
          rw [hentries c hlt']
          exact hcut.ones hones c hc hlt'
        · exact hcut.linked.congr fun c hcm => hentries c (hcut.linked.2 c hcm).2
        · exact (List.nodup_append.mp h.nodup).1
        · unfold Fil.extent
          dsimp only
          omega
        · have := h.limit
          unfold Fil.extent at *
          dsimp only
          omega
        · intro o b ho ho' hhere
          obtain ⟨hlt', hb⟩ := hknown o b ho'
          rw [← fileSect_append _ rest (hinside o (by omega))] at hhere
          exact h.buffered o b (by unfold Fil.extent; omega) hb hhere
        · intro o b ho ho' _
          obtain ⟨hlt', hb⟩ := hknown o b ho'
          have hextent : o < fp.extent := by
            unfold Fil.extent
            omega
          have hsector := h.sector_lt hextent
          have hmod : o % ss < ss := Nat.mod_lt _ (by decide)
          rw [← fileSect_append _ rest (hinside o (by omega)), hview _ _ hsector hmod]
          split
          next hhere => exact h.buffered o b hextent hb hhere.2
          next hother =>
            have hdata := h.clusters.data hsector
            have hbyte := byte_counts hdata.1 hdata.2 hmod
            have hcounts := data_counts hbyte.1 hbyte.2
            rw [hlimited.outside _ hcounts.1 hcounts.2]
            exact h.stored o b hextent hb fun hdirty heq => hother ⟨hdirty, heq⟩
        · intro hpartial
          have hne : fp.fptr ≠ ss * (front.length * vol.csize) := by
            intro heq
            rw [heq] at hpartial
            exact hpartial (Nat.mul_mod_right _ _)
          rw [← fileSect_append _ rest (hinside fp.fptr (by omega))]
          exact h.sector hpartial
      · rw [if_pos (by simp)]
        exact ⟨_, _, _, rfl, .inr ⟨by simp, rfl, hfaulty, hboth⟩⟩
    · rw [if_neg (by simp), if_pos (by simp)]
      exact ⟨_, _, _, rfl, .inr ⟨by simp, rfl, hfaulty, hframe⟩⟩
  next =>
    refine ⟨_, _, _, rfl, .inl ⟨rfl, ⟨rfl, rfl, rfl⟩, rfl, by omega, chain,
      .refl hm.coherent chain, ⟨⟨h.linked, h.nodup, h.start, h.room, h.limit, h.dirty,
        ?_, ?_⟩, h.cluster, h.sector⟩⟩⟩
    · intro o b ho ho'
      exact h.buffered o b ho (hknown o b ho').2
    · intro o b ho ho'
      exact h.stored o b ho (hknown o b ho').2

end PosixRtos.Fs
