import PosixRtos.Fs.Writing

/-! `f_lseek` moves the file pointer. In a file that is open for writing it can be moved beyond
the end: the file gets the clusters for it, with unknown bytes. -/
namespace PosixRtos.Fs

open PosixRtos.Library.ByteMemory PosixRtos.Library.Overlay PosixRtos.Library.Chains
open PosixRtos.Heap (word sub32)

variable {faults : Faults} {vol : Volume} {s s' : FatFs} {fp fp' : Fil}
variable {chain : List Nat} {known : Nat → Option Byte} {idx ofs : Nat}

/-- Nothing is known of what lies beyond the end of the file. -/
def Ends (fp : Fil) (known : Nat → Option Byte) : Prop := ∀ o, fp.fsize ≤ o → known o = none

/-- The bytes of a cluster. -/
def Volume.bcs (vol : Volume) : Nat := vol.csize * ss

theorem Volume.bcs_pos (vol : Volume) : 0 < vol.bcs := Nat.mul_pos vol.csize_pos (by decide)

theorem Volume.bcs_pow (vol : Volume) : ∃ e ≤ 16, vol.bcs = 2 ^ e := by
  obtain ⟨k, hk, hcsize⟩ := vol.csize_pow
  refine ⟨k + 9, by omega, ?_⟩
  unfold Volume.bcs ss
  rw [hcsize, Nat.pow_add]

theorem and_mask {x e : Nat} (hx : x < 2 ^ 32) (he : e ≤ 32) :
    x &&& (0xffffffff ^^^ (2 ^ e - 1)) = x / 2 ^ e * 2 ^ e := by
  apply Nat.eq_of_testBit_eq
  intro i
  have hmask : Nat.testBit 0xffffffff i = decide (i < 32) := Nat.testBit_two_pow_sub_one 32 i
  rw [Nat.testBit_and, Nat.testBit_xor, hmask, Nat.testBit_two_pow_sub_one,
    Nat.testBit_mul_two_pow, Nat.testBit_div_two_pow]
  by_cases hi : e ≤ i
  · rw [Nat.sub_add_cancel hi]
    by_cases h32 : i < 32
    · simp [hi, h32, Nat.not_lt.mpr hi]
    · rw [Nat.testBit_lt_two_pow (hx.trans_le (Nat.pow_le_pow_right (by omega) (by omega)))]
      simp
  · simp [hi, show i < 32 by omega, show i < e by omega]

/-- The first byte of the cluster of a byte. -/
theorem mask_bcs (vol : Volume) {x : Nat} (hx : x < 2 ^ 32) :
    x &&& (0xffffffff ^^^ (vol.bcs - 1)) = x / vol.bcs * vol.bcs := by
  obtain ⟨e, he, hbcs⟩ := vol.bcs_pow
  rw [hbcs]
  exact and_mask hx (by omega)

/-- A cluster of the file and the bytes in it. -/
theorem cluster_bytes (vol : Volume) (hidx : idx < chain.length) :
    idx * vol.bcs + vol.bcs ≤ ss * (chain.length * vol.csize) := by
  have hle : (idx + 1) * vol.bcs ≤ chain.length * vol.bcs := Nat.mul_le_mul_right _ hidx
  rw [Nat.succ_mul] at hle
  calc idx * vol.bcs + vol.bcs ≤ chain.length * vol.bcs := hle
    _ = ss * (chain.length * vol.csize) := by
      unfold Volume.bcs
      rw [← Nat.mul_assoc, Nat.mul_comm]

/-- The file pointer can be anywhere where the file has clusters. -/
theorem Holds.moved (h : Holds vol s fp chain known) (hends : Ends fp known) {pos : Nat}
    (hroom : pos ≤ ss * (chain.length * vol.csize)) (hlimit : pos < 2 ^ 32) :
    Holds vol s { fp with fptr := pos } chain known := by
  have hroom' := h.room
  have hlimit' := h.limit
  have hknown : ∀ o b, known o = some b → o < fp.extent := by
    intro o b ho
    by_contra hbeyond
    unfold Fil.extent at hbeyond
    rw [hends o (by omega)] at ho
    cases ho
  refine ⟨h.linked, h.nodup, h.start, ?_, ?_, h.dirty, ?_, ?_⟩
  · unfold Fil.extent at *
    dsimp only
    omega
  · unfold Fil.extent at *
    dsimp only
    omega
  · intro o b _ ho
    exact h.buffered o b (hknown o b ho) ho
  · intro o b _ ho
    exact h.stored o b (hknown o b ho) ho

/-! The loop. -/

/-- The file on its way to a place: the pointer is at the start of the current cluster. -/
structure Following (vol : Volume) (s : FatFs) (fp : Fil) (chain : List Nat)
    (known : Nat → Option Byte) (idx : Nat) : Prop extends Holds vol s fp chain known where
  here : chain[idx]? = some fp.clust
  base : fp.fptr = idx * vol.bcs

/-- What the seeking leaves alone. -/
structure Moving (fp fp' : Fil) : Prop extends SameFile fp fp' where
  fsize : fp'.fsize = fp.fsize

theorem Moving.trans {fp'' : Fil} (h : Moving fp fp') (h' : Moving fp' fp'') : Moving fp fp'' :=
  ⟨⟨h'.faRead.trans h.faRead, h'.faWrite.trans h.faWrite, h'.err.trans h.err⟩,
    h'.fsize.trans h.fsize⟩

theorem Following.next {v : Nat} {chain' : List Nat} (h : Following vol s fp chain known idx)
    (hends : Ends fp known) (hholds : Holds vol s' (fp.goesOn v) chain' known)
    (hv : chain'[idx + 1]? = some v) (hlimit : fp.fptr + vol.bcs < 2 ^ 32) :
    Following vol s' { fp with clust := v, fptr := fp.fptr + vol.bcs } chain' known (idx + 1) := by
  obtain ⟨hlt, -⟩ := List.getElem?_eq_some_iff.mp hv
  have hbytes := cluster_bytes vol hlt
  have hbase : fp.fptr + vol.bcs = (idx + 1) * vol.bcs := by rw [h.base, Nat.succ_mul]
  have hsame : fp.goesOn v = { fp with clust := v } := by
    obtain ⟨c, cs, hcs⟩ := List.exists_cons_of_ne_nil (List.ne_nil_of_mem
      (List.mem_of_getElem? h.here))
    have hrange := h.linked.2 c (by simp [hcs])
    have hstart : fp.sclust = c := by rw [h.start, hcs, List.headD_cons]
    unfold Fil.goesOn
    rw [if_neg (by omega)]
  rw [hsame] at hholds
  refine ⟨hholds.moved hends ?_ hlimit, hv, hbase⟩
  omega

/-- Where the cluster following ends: at the place, or in front of it on a full volume. -/
structure Arrived (vol : Volume) (s s' : FatFs) (fp fp' : Fil) (chain chain' : List Nat)
    (known : Nat → Option Byte) (target idx clst ofs : Nat) : Prop where
  progress : Progress vol s s' chain chain'
  following : Following vol s' fp' chain' known idx
  moving : Moving fp fp'
  pos : 0 < ofs
  le : ofs ≤ vol.bcs
  place : (fp'.fptr + ofs = target ∧ clst = fp'.clust) ∨
    (fp'.fptr + ofs < target ∧ clst = 0 ∧ ofs = vol.bcs ∧ fp.faWrite = true ∧ Full vol s')

theorem seekLoop_spec (faults : Faults) (fuel idx ofs : Nat) (s : FatFs) (fp : Fil)
    (chain : List Nat) (h : Following vol s fp chain known idx) (hends : Ends fp known)
    (hm : Mounted faults vol s chain) (hpos : 0 < ofs) (hlimit : fp.fptr + ofs < 2 ^ 32)
    (hmode : fp.faWrite = true ∨ fp.fptr + ofs ≤ ss * (chain.length * vol.csize))
    (hfuel : ofs < fuel) :
    ∃ s' fp' r, seekLoop faults vol.toGeometry vol.bcs fuel s fp fp.clust ofs =
        some (s', fp', r) ∧
      ((∃ chain' idx' clst' ofs', r = .ok (clst', ofs') ∧
          Arrived vol s s' fp fp' chain chain' known (fp.fptr + ofs) idx' clst' ofs') ∨
        ∃ res, r = .error res ∧ res ≠ .ok ∧ Faulty faults ∧ Frame vol s s' chain) := by
  induction fuel generalizing idx ofs s fp chain with
  | zero => omega
  | succ fuel ih =>
    have hbcs := vol.bcs_pos
    have hsmall := vol.nFatent_lt
    unfold seekLoop
    split
    next hfar =>
      dsimp only
      -- a cluster that is found is followed by the rest of the loop
      have hfollow : ∀ s₁ v chain₁, (2 ≤ v ∧ v < vol.nFatent) → chain₁[idx + 1]? = some v →
          Progress vol s s₁ chain chain₁ → Holds vol s₁ (fp.goesOn v) chain₁ known →
          (fp.faWrite = true ∨ chain₁ = chain) → ∃ s' fp' r,
          seekLoop faults vol.toGeometry vol.bcs fuel s₁
              { fp with clust := v, fptr := fp.fptr + vol.bcs } v (ofs - vol.bcs) =
              some (s', fp', r) ∧
            ((∃ chain' idx' clst' ofs', r = .ok (clst', ofs') ∧
                Arrived vol s s' fp fp' chain chain' known (fp.fptr + ofs) idx' clst' ofs') ∨
              ∃ res, r = .error res ∧ res ≠ .ok ∧ Faulty faults ∧ Frame vol s s' chain) := by
        intro s₁ v chain₁ hrange hv hprogress hholds hsame
        have hfollowing := h.next hends hholds hv (by omega)
        have hmoving : Moving fp { fp with clust := v, fptr := fp.fptr + vol.bcs } :=
          ⟨⟨rfl, rfl, rfl⟩, rfl⟩
        obtain ⟨s₂, fp₂, r, hloop, hr⟩ := ih (idx + 1) (ofs - vol.bcs) s₁
          { fp with clust := v, fptr := fp.fptr + vol.bcs } chain₁ hfollowing hends
          (hprogress.mounted hm) (by omega) (by dsimp only; omega)
          (by
            rcases hsame with hwrite | rfl
            · exact .inl hwrite
            · exact hmode.imp_right fun hle => by dsimp only; omega)
          (by omega)
        refine ⟨s₂, fp₂, r, hloop, ?_⟩
        dsimp only at hr
        rw [show fp.fptr + vol.bcs + (ofs - vol.bcs) = fp.fptr + ofs by omega] at hr
        rcases hr with ⟨chain', idx', clst', ofs', rfl, harrived⟩ |
          ⟨res, rfl, hres, hfaulty, hframe⟩
        · exact .inl ⟨chain', idx', clst', ofs', rfl, hprogress.trans harrived.progress,
            harrived.following, hmoving.trans harrived.moving, harrived.pos, harrived.le,
            harrived.place⟩
        · exact .inr ⟨res, rfl, hres, hfaulty, hprogress.frame.trans hframe
            fun c hcm => (hprogress.grown c hcm).imp_right And.right⟩
      by_cases hwrite : fp.faWrite = true
      · have hbefore : Before chain (idx + 1) fp.clust := .inr ⟨idx, rfl, h.here⟩
        obtain ⟨s₁, v, hcreate, hnext⟩ := createNext_spec faults h.toHolds hm hbefore
        rw [if_pos hwrite, hcreate]
        dsimp only
        cases hnext with
        | failed hv hfaulty hframe =>
          rcases hv with rfl | rfl
          · rw [if_neg (by simp), if_neg (by decide), if_pos (by omega)]
            exact ⟨_, _, _, rfl, .inr ⟨.intErr, rfl, by simp, hfaulty, hframe⟩⟩
          · rw [if_neg (by simp [diskError]), if_pos rfl]
            exact ⟨_, _, _, rfl, .inr ⟨.diskErr, rfl, by simp, hfaulty, hframe⟩⟩
        | full hidx hfull hkept hstays =>
          rw [if_pos ⟨hwrite, rfl⟩]
          refine ⟨_, _, _, rfl, .inl ⟨chain, idx, 0, vol.bcs, rfl, hkept.progress hstays chain,
            ⟨h.toHolds.kept hkept, h.here, h.base⟩, ⟨⟨rfl, rfl, rfl⟩, rfl⟩, hbcs, le_rfl,
            .inr ⟨by omega, rfl, rfl, hwrite, hkept.full hfull⟩⟩⟩
        | found hrange hv hprogress hholds =>
          rw [if_neg (by omega), if_neg (by unfold diskError; omega), if_neg (by omega)]
          exact hfollow s₁ v _ hrange hv hprogress hholds (.inl hwrite)
      · have hle := hmode.resolve_left hwrite
        have hmem := List.mem_of_getElem? h.here
        have hrange := h.linked.2 _ hmem
        have hlt : idx + 1 < chain.length := by
          by_contra hend
          obtain ⟨hidx, -⟩ := List.getElem?_eq_some_iff.mp h.here
          have hall : chain.length = idx + 1 := by omega
          have hbytes : ss * (chain.length * vol.csize) = idx * vol.bcs + vol.bcs := by
            rw [hall, ← Nat.succ_mul]
            unfold Volume.bcs
            rw [Nat.mul_comm, Nat.mul_assoc]
          rw [h.base] at hle
          omega
        have hlink := h.linked.1.next_eq (i := idx) hlt
        obtain ⟨hidx, hget⟩ := List.getElem?_eq_some_iff.mp h.here
        rw [hget] at hlink
        have hrange' := h.linked.2 _ (List.getElem_mem hlt)
        rw [if_neg hwrite]
        have hstays := getFat_stays faults vol s fp.clust
        obtain ⟨s₁, v, hcalled⟩ : ∃ s₁ v, getFat faults vol.toGeometry s fp.clust = (s₁, v) :=
          ⟨_, _, rfl⟩
        rw [hcalled] at hstays ⊢
        dsimp only at hstays ⊢
        obtain ⟨hkept, rfl | ⟨rfl, hfaulty⟩⟩ := getFat_spec hm.coherent hrange.1 hrange.2 hcalled
        · rw [hlink, if_neg (fun hzero => hwrite hzero.1), if_neg (by unfold diskError; omega),
            if_neg (by omega)]
          exact hfollow s₁ _ chain hrange' (List.getElem?_eq_getElem hlt)
            (hkept.progress hstays chain)
            ((h.toHolds.kept hkept).goesOn (List.getElem_mem hlt)) (.inr rfl)
        · rw [if_neg (fun hzero => hwrite hzero.1), if_pos rfl]
          exact ⟨_, _, _, rfl, .inr ⟨.diskErr, rfl, by simp, hfaulty, hkept.frame hstays chain⟩⟩
    next hnear =>
      exact ⟨_, _, _, rfl, .inl ⟨chain, idx, fp.clust, ofs, rfl, .refl hm.coherent chain,
        h, ⟨⟨rfl, rfl, rfl⟩, rfl⟩, hpos, by omega, .inl ⟨rfl, rfl⟩⟩⟩

/-! The start. -/

/-- The cluster of a byte, by sectors and by clusters. -/
theorem div_bcs (vol : Volume) (o : Nat) : o / ss / vol.csize = o / vol.bcs := by
  rw [Nat.div_div_eq_div_mul]
  unfold Volume.bcs
  rw [Nat.mul_comm]

theorem seekStart_spec (faults : Faults) (h : FileInv vol s fp chain known) (hends : Ends fp known)
    (hm : Mounted faults vol s chain) (hpos : 0 < ofs) :
    ∃ s' fp' r, seekStart faults vol.toGeometry vol.bcs s fp ofs = some (s', fp', r) ∧
      ((∃ chain' idx, r = .ok (fp'.clust, ofs - idx * vol.bcs) ∧ idx * vol.bcs < ofs ∧
          Progress vol s s' chain chain' ∧ Following vol s' fp' chain' known idx ∧
          Moving fp fp' ∧ chain.length ≤ chain'.length) ∨
        (r = .ok (0, ofs) ∧ Progress vol s s' chain chain ∧ chain = [] ∧ Moving fp fp' ∧
          fp'.fptr = 0 ∧ Holds vol s' fp' chain known ∧ Full vol s') ∨
        ∃ res, r = .error res ∧ res ≠ .ok ∧ Faulty faults ∧ Frame vol s s' chain) := by
  have hlimit := h.limit
  unfold seekStart
  dsimp only
  split
  next hforward =>
    have hbase : (fp.fptr - 1) / vol.bcs * vol.bcs ≤ fp.fptr - 1 := Nat.div_mul_le_self _ _
    have hbefore : (fp.fptr - 1) / vol.bcs * vol.bcs ≤ ofs - 1 :=
      (Nat.mul_le_mul_right _ hforward.2).trans (Nat.div_mul_le_self _ _)
    have hcluster := h.cluster hforward.1
    rw [div_bcs] at hcluster
    have hmask := mask_bcs vol (x := fp.fptr - 1) (by unfold Fil.extent at hlimit; omega)
    rw [hmask]
    refine ⟨_, _, _, rfl, .inl ⟨chain, (fp.fptr - 1) / vol.bcs, rfl, by omega,
      .refl hm.coherent chain, ⟨h.toHolds.moved hends ?_ ?_, hcluster, rfl⟩,
      ⟨⟨rfl, rfl, rfl⟩, rfl⟩, le_rfl⟩⟩
    · have := h.room
      unfold Fil.extent at this
      omega
    · unfold Fil.extent at hlimit
      omega
  next =>
    have hzero : Holds vol s { fp with fptr := 0 } chain known :=
      h.toHolds.moved hends (Nat.zero_le _) (by decide)
    split
    next hnone =>
      have hempty : chain = [] := by
        by_contra hne
        have := (h.first hne).2
        omega
      obtain ⟨s₁, v, hcreate, hnext⟩ := createNext_spec faults hzero hm
        (.inl ⟨rfl, hempty, rfl⟩)
      rw [hcreate, Option.map_some]
      cases hnext with
      | failed hv hfaulty hframe =>
        rcases hv with rfl | rfl
        · exact ⟨_, _, _, rfl, .inr (.inr ⟨.intErr, rfl, by simp, hfaulty, hframe⟩)⟩
        · exact ⟨_, _, _, rfl, .inr (.inr ⟨.diskErr, rfl, by simp, hfaulty, hframe⟩)⟩
      | full _ hfull hkept hstays =>
        rw [if_neg (show ¬ 0 = 1 by decide), if_neg (show ¬ 0 = diskError by decide)]
        refine ⟨_, _, _, rfl, .inr (.inl ⟨rfl, hkept.progress hstays chain, hempty,
          ⟨⟨rfl, rfl, rfl⟩, rfl⟩, rfl, ?_, hkept.full hfull⟩)⟩
        have hsame := (hzero.kept hkept).withClust 0
        rw [hnone] at hsame
        exact hsame
      | found hrange hv hprogress hholds =>
        have hsmall := vol.nFatent_lt
        rw [if_neg (show ¬ v = 1 by omega),
          if_neg (show ¬ v = diskError by unfold diskError; omega)]
        refine ⟨_, _, _, rfl, .inl ⟨_, 0, by rw [Nat.zero_mul, Nat.sub_zero], by omega, hprogress,
          ⟨?_, hv, by rw [Nat.zero_mul]⟩, ⟨⟨rfl, rfl, rfl⟩, rfl⟩, by simp [hempty]⟩⟩
        unfold Fil.goesOn at hholds
        rw [if_pos hnone] at hholds
        exact hholds
    next hsome =>
      have hne : chain ≠ [] := by
        rintro rfl
        exact hsome h.start
      refine ⟨_, _, _, rfl, .inl ⟨chain, 0, by rw [Nat.zero_mul, Nat.sub_zero], by omega,
        .refl hm.coherent chain, ⟨hzero.withClust _, (h.first hne).1, by rw [Nat.zero_mul]⟩,
        ⟨⟨rfl, rfl, rfl⟩, rfl⟩, le_rfl⟩⟩

/-! The place. -/

/-- The pointer at a place of the current cluster, behind its first byte. -/
theorem Following.place (h : Following vol s fp chain known idx) (hends : Ends fp known)
    (hpos : 0 < ofs) (hle : ofs ≤ vol.bcs) (hlimit : fp.fptr + ofs < 2 ^ 32) :
    Holds vol s { fp with fptr := fp.fptr + ofs } chain known ∧
      chain[(fp.fptr + ofs - 1) / ss / vol.csize]? = some fp.clust ∧
      (fp.fptr + ofs) % ss = ofs % ss ∧
      (ofs % ss ≠ 0 → clust2sect vol.toGeometry fp.clust ≠ 0 ∧
        (fp.fptr + ofs) / ss < chain.length * vol.csize ∧
        word (clust2sect vol.toGeometry fp.clust + ofs / ss) =
          fileSect vol.toGeometry chain ((fp.fptr + ofs) / ss)) := by
  obtain ⟨hidx, -⟩ := List.getElem?_eq_some_iff.mp h.here
  have hbytes := cluster_bytes vol hidx
  have hcsize := vol.csize_pos
  have hbase : fp.fptr = ss * (idx * vol.csize) := by
    rw [h.base]
    unfold Volume.bcs
    rw [← Nat.mul_assoc, Nat.mul_comm]
  have hdiv : (fp.fptr + ofs) / ss = idx * vol.csize + ofs / ss := by
    rw [hbase, Nat.mul_add_div (by decide)]
  have hcluster : ∀ m, m < vol.bcs → (fp.fptr + m) / ss / vol.csize = idx := by
    intro m hm
    rw [div_bcs, h.base, Nat.mul_comm, Nat.mul_add_div vol.bcs_pos, Nat.div_eq_of_lt hm,
      Nat.add_zero]
  refine ⟨h.toHolds.moved hends (by rw [h.base]; omega) hlimit, ?_, ?_, ?_⟩
  · rw [Nat.add_sub_assoc hpos, hcluster _ (by omega)]
    exact h.here
  · rw [hbase, Nat.mul_add_mod]
  · intro hpartial
    have hlt : ofs < vol.bcs := by
      refine lt_of_le_of_ne hle ?_
      rintro rfl
      apply hpartial
      unfold Volume.bcs
      exact Nat.mul_mod_left _ _
    have hinside : ofs / ss < vol.csize := Nat.div_lt_of_lt_mul (by
      unfold Volume.bcs at hlt
      rwa [Nat.mul_comm])
    have hhere : chain[(fp.fptr + ofs) / ss / vol.csize]? = some fp.clust := by
      rw [hcluster _ hlt]
      exact h.here
    obtain ⟨hsect, hword⟩ := h.toHolds.sect_eq hhere
    refine ⟨hsect, sector_of_cluster hhere, ?_⟩
    rw [hdiv, Nat.mul_comm, Nat.mul_add_mod, Nat.mod_eq_of_lt hinside] at hword
    rw [hdiv, Nat.mul_comm]
    exact hword

/-- Where the pointer is afterwards: at the place, or in front of it on a full volume. -/
structure Sought (vol : Volume) (s s' : FatFs) (fp fp' : Fil) (chain chain' : List Nat)
    (known : Nat → Option Byte) (ofs nsect : Nat) : Prop where
  progress : Progress vol s s' chain chain'
  holds : Holds vol s' fp' chain' known
  moving : Moving fp fp'
  cluster : 0 < fp'.fptr → chain'[(fp'.fptr - 1) / ss / vol.csize]? = some fp'.clust
  sector : fp'.fptr % ss ≠ 0 → fp'.fptr / ss < chain'.length * vol.csize ∧
    nsect = fileSect vol.toGeometry chain' (fp'.fptr / ss)
  place : fp'.fptr = ofs ∨ fp'.fptr < ofs ∧ fp.faWrite = true ∧ Full vol s'

theorem seekClusters_spec (faults : Faults) (h : FileInv vol s fp chain known)
    (hends : Ends fp known) (hm : Mounted faults vol s chain) (hlimit : ofs < 2 ^ 32)
    (hmode : fp.faWrite = true ∨ ofs ≤ fp.fsize) :
    ∃ s' fp' r, seekClusters faults vol.toGeometry s fp ofs = some (s', fp', r) ∧
      ((∃ chain' nsect, r = .ok nsect ∧ Sought vol s s' fp fp' chain chain' known ofs nsect) ∨
        ∃ res, r = .error res ∧ res ≠ .ok ∧ Faulty faults ∧ Frame vol s s' chain) := by
  have hroom := h.room
  unfold seekClusters
  split
  next hzero =>
    refine ⟨_, _, _, rfl, .inl ⟨chain, 0, rfl, .refl hm.coherent chain,
      h.toHolds.moved hends (Nat.zero_le _) (by decide), ⟨⟨rfl, rfl, rfl⟩, rfl⟩, ?_, ?_,
      .inl hzero.symm⟩⟩
    · intro hpos
      cases hpos
    · intro hpartial
      exact absurd rfl hpartial
  next hne =>
    dsimp only
    obtain ⟨s₁, fp₁, r₁, hstart, hr₁⟩ := seekStart_spec faults h hends hm (Nat.pos_of_ne_zero hne)
    unfold Volume.bcs at hstart
    rw [hstart]
    rcases hr₁ with ⟨chain₁, idx, rfl, hlt, hprogress, hfollowing, hmoving, hlength⟩ |
      ⟨rfl, hprogress, hempty, hmoving, hptr, hholds, hfull⟩ | ⟨res, rfl, hres, hfaulty, hframe⟩
    · have hnonzero : fp₁.clust ≠ 0 := by
        have := hfollowing.linked.2 _ (List.mem_of_getElem? hfollowing.here)
        omega
      dsimp only
      rw [if_neg hnonzero]
      have hbase := hfollowing.base
      have hends₁ : Ends fp₁ known := fun o ho => hends o (by rw [← hmoving.fsize]; exact ho)
      have hlonger : chain.length * vol.csize ≤ chain₁.length * vol.csize :=
        Nat.mul_le_mul_right _ hlength
      have hbytes : ss * (chain.length * vol.csize) ≤ ss * (chain₁.length * vol.csize) :=
        Nat.mul_le_mul_left _ hlonger
      obtain ⟨s₂, fp₂, r₂, hloop, hr₂⟩ := seekLoop_spec faults (ofs - idx * vol.bcs + 1) idx
        (ofs - idx * vol.bcs) s₁ fp₁ chain₁ hfollowing hends₁ (hprogress.mounted hm) (by omega)
        (by omega) (by
          rw [hmoving.faWrite]
          refine hmode.imp_right fun hle => ?_
          unfold Fil.extent at hroom
          omega) (by omega)
      rw [show fp₁.fptr + (ofs - idx * vol.bcs) = ofs by omega] at hr₂
      unfold Volume.bcs at hloop
      unfold Volume.bcs
      rw [hloop]
      rcases hr₂ with ⟨chain₂, idx₂, clst, ofs₂, rfl, harrived⟩ | ⟨res, rfl, hres, hfaulty, hframe⟩
      · dsimp only
        have hends₂ : Ends fp₂ known := fun o ho => hends₁ o (by
          rw [← harrived.moving.fsize]; exact ho)
        obtain ⟨hholds, hcluster, hmod, hsector⟩ := harrived.following.place hends₂ harrived.pos
          harrived.le (by rcases harrived.place with ⟨heq, -⟩ | ⟨hlt, -⟩ <;> omega)
        have hboth := hprogress.trans harrived.progress
        have hmoved : Moving fp { fp₂ with fptr := fp₂.fptr + ofs₂ } :=
          hmoving.trans ⟨⟨harrived.moving.faRead, harrived.moving.faWrite, harrived.moving.err⟩,
            harrived.moving.fsize⟩
        have hplace : fp₂.fptr + ofs₂ = ofs ∨
            fp₂.fptr + ofs₂ < ofs ∧ fp.faWrite = true ∧ Full vol s₂ :=
          harrived.place.imp And.left fun ⟨hlt, _, _, hwrite, hfull⟩ =>
            ⟨hlt, hmoving.faWrite.symm.trans hwrite, hfull⟩
        split
        next hpartial =>
          obtain ⟨hsect, hinside, hword⟩ := hsector hpartial
          have hclst : clst = fp₂.clust := by
            rcases harrived.place with ⟨-, heq⟩ | ⟨-, -, hofs, -⟩
            · exact heq
            · refine absurd ?_ hpartial
              rw [hofs]
              unfold Volume.bcs
              exact Nat.mul_mod_left _ _
          rw [hclst, if_neg hsect]
          exact ⟨_, _, _, rfl, .inl ⟨chain₂, _, rfl, hboth, hholds, hmoved, fun _ => hcluster,
            fun _ => ⟨hinside, hword⟩, hplace⟩⟩
        next hwhole =>
          refine ⟨_, _, _, rfl, .inl ⟨chain₂, _, rfl, hboth, hholds, hmoved, fun _ => hcluster,
            fun hpartial => ?_, hplace⟩⟩
          dsimp only at hpartial
          rw [hmod] at hpartial
          exact absurd hpartial hwhole
      · exact ⟨_, _, _, rfl, .inr ⟨res, rfl, hres, hfaulty, hprogress.frame.trans hframe
          fun c hcm => (hprogress.grown c hcm).imp_right And.right⟩⟩
    · dsimp only
      rw [if_pos rfl]
      refine ⟨_, _, _, rfl, .inl ⟨chain, 0, rfl, hprogress, hholds, hmoving, ?_, ?_,
        .inr ⟨by omega, ?_, hfull⟩⟩⟩
      · intro hpos
        omega
      · intro hpartial
        rw [hptr] at hpartial
        exact absurd rfl hpartial
      · refine hmode.resolve_right fun hle => ?_
        unfold Fil.extent at hroom
        rw [hempty] at hroom
        simp at hroom
        omega
    · exact ⟨_, _, _, rfl, .inr ⟨res, rfl, hres, hfaulty, hframe⟩⟩

/-- `f_lseek`: in a file that is open for reading only, the end of the file is the last place. -/
theorem fLseek_spec (faults : Faults) (ofs : Nat) (h : FileInv vol s fp chain known)
    (hends : Ends fp known) (hm : Mounted faults vol s chain) (herr : fp.err = .ok)
    (hlimit : ofs < 2 ^ 32) :
    ∃ s' fp' r, fLseek faults vol.toGeometry true s fp ofs = some (s', fp', r) ∧
      ((r = .ok ∧ SameFile fp fp' ∧ fp'.fsize = max fp.fsize fp'.fptr ∧
          (fp'.fptr = (if fp.faWrite then ofs else min ofs fp.fsize) ∨
            fp'.fptr < ofs ∧ fp.faWrite = true ∧ Full vol s') ∧
          ∃ chain', Progress vol s s' chain chain' ∧ FileInv vol s' fp' chain' known) ∨
        r ≠ .ok ∧ fp'.err = r ∧ Faulty faults ∧ Frame vol s s' chain) := by
  unfold fLseek
  rw [herr]
  dsimp only
  rw [if_neg (by simp), if_neg (by simp)]
  obtain ⟨ofs', hofs⟩ : ∃ ofs', (if fp.fsize < ofs ∧ (!fp.faWrite) = true then fp.fsize else ofs) =
    ofs' := ⟨_, rfl⟩
  have htarget : ofs' = (if fp.faWrite then ofs else min ofs fp.fsize) ∧ ofs' ≤ ofs ∧
      (fp.faWrite = true ∨ ofs' ≤ fp.fsize) := by
    rw [← hofs]
    cases fp.faWrite
    · simp only [Bool.not_false, and_true, Bool.false_eq_true, if_false, false_or]
      split <;> omega
    · simp
  rw [hofs]
  obtain ⟨s₁, fp₁, r₁, hseek, hr₁⟩ := seekClusters_spec faults h hends hm
    (show ofs' < 2 ^ 32 by omega) htarget.2.2
  rw [hseek]
  rcases hr₁ with ⟨chain₁, nsect, rfl, hsought⟩ | ⟨res, rfl, hres, hfaulty, hframe⟩
  · dsimp only
    obtain ⟨s₂, fp₂, r₂, hload⟩ : ∃ s₂ fp₂ r₂, (if fp₁.fptr % ss ≠ 0 then
      loadSector faults s₁ fp₁ nsect else (s₁, fp₁, .ok)) = (s₂, fp₂, r₂) := ⟨_, _, _, rfl⟩
    rw [hload]
    dsimp only
    have hc₁ := hsought.progress.frame.coherent
    have hclear₁ := hsought.progress.clear hm.clear
    -- the buffer has the sector of the place
    have hplaced : Progress vol s₁ s₂ chain₁ chain₁ ∧ (r₂ = .ok ∧ Steady fp₁ fp₂ ∧
        FileInv vol s₂ fp₂ chain₁ known ∨ r₂ = .diskErr ∧ Faulty faults) := by
      split at hload
      next hpartial =>
        obtain ⟨hinside, hnsect⟩ := hsought.sector hpartial
        rw [hnsect] at hload
        obtain ⟨hprogress, hr₂⟩ := loadSector_spec hsought.holds hc₁ hclear₁ hinside hload
        refine ⟨hprogress, hr₂.imp_left ?_⟩
        rintro ⟨rfl, hholds, hsteady, hclust, hdsect⟩
        refine ⟨rfl, hsteady, hholds, ?_, ?_⟩
        · rw [hsteady.fptr, hclust]
          exact hsought.cluster
        · rw [hsteady.fptr]
          exact fun _ => hdsect
      next hwhole =>
        cases hload
        exact ⟨.refl hc₁ chain₁, .inl ⟨rfl, .refl _, hsought.holds, hsought.cluster,
          fun hpartial => absurd hpartial hwhole⟩⟩
    obtain ⟨hprogress, ⟨rfl, hsteady, hinv⟩ | ⟨rfl, hfaulty⟩⟩ := hplaced
    · rw [if_neg (by simp)]
      have hmoving := hsought.moving
      have hboth := hsought.progress.trans hprogress
      have hfull : Full vol s₁ → Full vol s₂ := by
        intro hfull c hc hlt
        by_cases hmem : c ∈ chain₁
        · have := hinv.linked.entry_cases hmem
          omega
        · rw [hprogress.frame.entries c hc hlt hmem (hfull c hc hlt)]
          exact hfull c hc hlt
      have hplace : fp₂.fptr = (if fp.faWrite then ofs else min ofs fp.fsize) ∨
          fp₂.fptr < ofs ∧ fp.faWrite = true ∧ Full vol s₂ := by
        rw [hsteady.fptr, ← htarget.1]
        exact hsought.place.imp_right fun ⟨hlt, hwrite, hfull'⟩ =>
          ⟨by omega, hwrite, hfull hfull'⟩
      have hsame : SameFile fp fp₂ := ⟨hsteady.faRead.trans hmoving.faRead,
        hsteady.faWrite.trans hmoving.faWrite, hsteady.err.trans hmoving.err⟩
      have hsize : fp₂.fsize = fp.fsize := hsteady.fsize.trans hmoving.fsize
      split
      next hlonger =>
        refine ⟨_, _, _, rfl, .inl ⟨rfl, ⟨hsame.faRead, hsame.faWrite, hsame.err⟩, ?_, hplace,
          chain₁, hboth, hinv.sized ?_⟩⟩
        · dsimp only
          omega
        · unfold Fil.extent
          omega
      next hwithin =>
        exact ⟨_, _, _, rfl, .inl ⟨rfl, hsame, by omega, hplace, chain₁, hboth, hinv⟩⟩
    · rw [if_pos (by simp)]
      exact ⟨_, _, _, rfl, .inr ⟨by simp, rfl, hfaulty, (hsought.progress.trans hprogress).frame⟩⟩
  · exact ⟨_, _, _, rfl, .inr ⟨hres, rfl, hfaulty, hframe⟩⟩

end PosixRtos.Fs
