import PosixRtos.Fs.Extents

/-! The walk through a directory of `ff.c`: `dir_sdi`, `dir_next` and the search for a short
name, `dir_find`. A directory is the table of the root, in a place of its own, or the sectors
of a chain. -/
namespace PosixRtos.Fs

open PosixRtos.Library.ByteMemory PosixRtos.Library.Chains
open PosixRtos.Heap (word sub32)

def szDire : Nat := 32

def dirAttr : Nat := 11

def amVol : Byte := 0x08

/-- `SS(fs) / SZ_DIRE` -/
def perSect : Nat := ss / szDire

/-- `FRESULT` with `FR_NO_FILE`. -/
inductive DirResult where
  | res (r : FResult)
  | noFile
deriving DecidableEq, Repr

/-- `DIR`; the pointer `dir` is a place in the window. -/
structure Dir where
  index : Nat
  sclust : Nat
  clust : Nat
  sect : Nat
  dir : Nat
  fn : List Byte

variable (faults : Faults) (g : Geometry)

/-- The loop of `dir_sdi`. -/
def sdiLoop : Nat → FatFs → Nat → Nat → Option (FatFs × Except FResult (Nat × Nat))
  | 0, _, _, _ => none
  | fuel + 1, s, clst, idx =>
      let ic := perSect * g.csize
      if ic ≤ idx then
        let (s, clst) := getFat faults g s clst
        if clst = diskError then some (s, .error .diskErr)
        else if clst < 2 ∨ g.nFatent ≤ clst then some (s, .error .intErr)
        else sdiLoop fuel s clst (idx - ic)
      else some (s, .ok (clst, idx))

/-- The end of `dir_sdi`. -/
def dirPlace (s : FatFs) (dp : Dir) (clst sect idx : Nat) : FatFs × Dir × DirResult :=
  let dp := { dp with clust := clst }
  if sect = 0 then (s, dp, .res .intErr)
  else
    let dp := { dp with sect := word (sect + idx / perSect), dir := idx % perSect * szDire }
    (s, dp, .res .ok)

/-- `dir_sdi`. The table of FAT32 starts at cluster `dirbase`. -/
def dirSdi (s : FatFs) (dp : Dir) (idx : Nat) : Option (FatFs × Dir × DirResult) :=
  let dp := { dp with index := idx % 2 ^ 16 }
  let clst := dp.sclust
  if clst = 1 ∨ g.nFatent ≤ clst then some (s, dp, .res .intErr)
  else
    let clst := if clst = 0 ∧ g.fsType = .fat32 then g.dirbase else clst
    if clst = 0 then
      if g.nRootdir ≤ idx then some (s, dp, .res .intErr)
      else some (dirPlace s dp 0 g.dirbase idx)
    else do
      let (s, r) ← sdiLoop faults g (idx + 1) s clst idx
      match r with
      | .error e => some (s, dp, .res e)
      | .ok (clst, idx) => some (dirPlace s dp clst (clust2sect g clst) idx)

/-- The loop of `dir_next` that fills a new cluster with 0. -/
def clearCluster : Nat → FatFs → FatFs × FResult
  | 0, s => (s, .ok)
  | c + 1, s =>
      let (s, r) := syncWindow faults g { s with wflag := true }
      if r = .ok then clearCluster c { s with winsect := word (s.winsect + 1) } else (s, .diskErr)

/-- `dir_next` at the end of the table, where it is to be stretched. -/
def stretchDir (s : FatFs) (clust : Nat) : Option (FatFs × Except DirResult Nat) := do
  let (s, clst) ← createChain faults g s clust
  if clst = 0 then some (s, .error (.res .denied))
  else if clst = 1 then some (s, .error (.res .intErr))
  else if clst = diskError then some (s, .error (.res .diskErr))
  else
    let (s, r) := syncWindow faults g s
    if r ≠ .ok then some (s, .error (.res .diskErr))
    else
      let s := { s with
        win := write s.win 0 (List.replicate ss 0)
        winsect := clust2sect g clst }
      let (s, r) := clearCluster faults g g.csize s
      if r ≠ .ok then some (s, .error (.res .diskErr))
      else some ({ s with winsect := sub32 s.winsect g.csize }, .ok clst)

def Dir.at (dp : Dir) (i : Nat) : Dir :=
  { dp with index := i % 2 ^ 16, dir := i % perSect * szDire }

def dirNext (s : FatFs) (dp : Dir) (stretch : Bool) : Option (FatFs × Dir × DirResult) :=
  let i := dp.index + 1
  if i % 2 ^ 16 = 0 ∨ dp.sect = 0 then some (s, dp, .noFile)
  else if i % perSect ≠ 0 then some (s, dp.at i, .res .ok)
  else
    let dp := { dp with sect := word (dp.sect + 1) }
    if dp.clust = 0 then
      if g.nRootdir ≤ i then some (s, dp, .noFile) else some (s, dp.at i, .res .ok)
    else if i / perSect &&& (g.csize - 1) ≠ 0 then some (s, dp.at i, .res .ok)
    else
      let (s, clst) := getFat faults g s dp.clust
      if clst ≤ 1 then some (s, dp, .res .intErr)
      else if clst = diskError then some (s, dp, .res .diskErr)
      else do
        let (s, r) ←
          if g.nFatent ≤ clst then
            if stretch then stretchDir faults g s dp.clust else some (s, .error .noFile)
          else some (s, .ok clst)
        match r with
        | .error e => some (s, dp, e)
        | .ok clst =>
            some (s, { dp with clust := clst, sect := clust2sect g clst }.at i, .res .ok)

/-- The loop of `dir_find`. Long names are switched off. -/
def findLoop : Nat → FatFs → Dir → Option (FatFs × Dir × DirResult)
  | 0, _, _ => none
  | fuel + 1, s, dp =>
      let (s, r) := moveWindow faults g s dp.sect
      if r ≠ .ok then some (s, dp, .res r)
      else if s.win dp.dir = 0 then some (s, dp, .noFile)
      else if s.win (dp.dir + dirAttr) &&& amVol = 0 ∧ read s.win dp.dir 11 = dp.fn then
        some (s, dp, .res .ok)
      else do
        let (s, dp, r) ← dirNext faults g s dp false
        if r = .res .ok then findLoop fuel s dp else some (s, dp, r)

/-- `dir_find`. The index is a `WORD`. -/
def dirFind (s : FatFs) (dp : Dir) : Option (FatFs × Dir × DirResult) := do
  let (s, dp, r) ← dirSdi faults g s dp 0
  if r = .res .ok then findLoop faults g (2 ^ 16) s dp else some (s, dp, r)

/-! Directories. The chain of the root of FAT12 and FAT16 is empty. -/

/-- Sector `k` of a directory. -/
def tableSect (chain : List Nat) (k : Nat) : Nat :=
  if chain = [] then g.dirbase + k else fileSect g chain k

/-- How many sectors it has. -/
def tableLength (chain : List Nat) : Nat :=
  if chain = [] then g.nRootdir / perSect else chain.length * g.csize

/-- The address of entry `i`. -/
def entryAt (chain : List Nat) (i : Nat) : Nat :=
  ss * tableSect g chain (i / perSect) + i % perSect * szDire

/-- The entries that `dir_next` comes to. -/
def entryCount (chain : List Nat) : Nat := min (perSect * tableLength g chain) (2 ^ 16)

/-- A directory that starts at `sclust`. -/
structure Directory (vol : Volume) (s : FatFs) (sclust : Nat) (chain : List Nat) : Prop where
  linked : Chain vol s chain
  start : sclust ≠ 1 ∧ sclust < vol.nFatent ∧
    (if sclust = 0 ∧ vol.fsType = .fat32 then vol.dirbase else sclust) = chain.headD 0
  root : chain = [] → 0 < vol.nRootdir ∧ vol.nRootdir % perSect = 0 ∧
    vol.fatbase + vol.nFats * vol.fsize ≤ vol.dirbase ∧
    vol.dirbase + vol.nRootdir / perSect ≤ vol.database

/-- The entry at `a` has the name and is not a label. -/
def Names (mem : Memory) (fn : List Byte) (a : Nat) : Prop :=
  mem (a + dirAttr) &&& amVol = 0 ∧ read mem a 11 = fn

/-- The directory object is at entry `i`. -/
structure DirAt (vol : Volume) (chain : List Nat) (dp : Dir) (i : Nat) : Prop where
  index : dp.index = i
  bound : i < entryCount vol.toGeometry chain
  clust : dp.clust = chain.getD (i / perSect / vol.csize) 0
  sect : dp.sect = tableSect vol.toGeometry chain (i / perSect)
  dir : dp.dir = i % perSect * szDire

/-- Moving in a directory keeps where it starts and what is looked for. -/
structure SameDir (dp dp' : Dir) : Prop where
  fn : dp'.fn = dp.fn
  sclust : dp'.sclust = dp.sclust

variable {faults} {vol : Volume} {s s' : FatFs} {chain : List Nat} {dp dp' : Dir} {i k : Nat}

theorem SameDir.trans {dp'' : Dir} (h : SameDir dp dp') (h' : SameDir dp' dp'') :
    SameDir dp dp'' := ⟨h'.fn.trans h.fn, h'.sclust.trans h.sclust⟩

/-- A walk through a directory changes nothing. The window may go to its sectors. -/
structure Walked (vol : Volume) (chain : List Nat) (s s' : FatFs) : Prop
    extends Kept vol.toGeometry s s' where
  window : Stays vol s s' ∨ ∃ k < tableLength vol.toGeometry chain,
    s'.winsect = tableSect vol.toGeometry chain k

theorem Walked.refl (hc : Coherent s) : Walked vol chain s s := ⟨.refl hc, .inl (.refl vol s)⟩

theorem Walked.trans {s'' : FatFs} (h : Walked vol chain s s') (h' : Walked vol chain s' s'') :
    Walked vol chain s s'' := by
  refine ⟨h.toKept.trans h'.toKept, ?_⟩
  rcases h'.window with hsame | hthere
  · rcases h.window with hstays | ⟨k, hk, hsector⟩
    · exact .inl (hstays.trans hsame)
    · rcases hsame with hsame | hfront
      · exact .inr ⟨k, hk, hsame.trans hsector⟩
      · exact .inl (.inr hfront)
  · exact .inr hthere

theorem moveWindow_walked {r : FResult} (hc : Coherent s)
    (hk : k < tableLength vol.toGeometry chain)
    (hcall : moveWindow faults vol.toGeometry s (tableSect vol.toGeometry chain k) = (s', r)) :
    Walked vol chain s s' ∧ (r = .ok ∧ s'.winsect = tableSect vol.toGeometry chain k ∨
      r = .diskErr ∧ Faulty faults) := by
  obtain ⟨hkept, hr⟩ := moveWindow_spec hc hcall
  refine ⟨⟨hkept, ?_⟩, hr⟩
  unfold moveWindow at hcall
  split at hcall
  next =>
    cases hcall
    exact .inl (.refl vol s)
  next =>
    dsimp only at hcall
    split at hcall
    · split at hcall
      · cases hcall
        exact .inr ⟨k, hk, rfl⟩
      · cases hcall
        exact .inl (.inr (.inr rfl))
    · cases hcall
      exact .inl (.inl (syncWindow_winsect faults s))

theorem Kept.directory {sclust : Nat} (hkept : Kept vol.toGeometry s s')
    (h : Directory vol s sclust chain) : Directory vol s' sclust chain where
  linked := h.linked.congr fun c hc => hkept.entry (h.linked.2 c hc).2
  start := h.start
  root := h.root

theorem perSect_eq : perSect = 16 := rfl

theorem lt_entryCount : i < entryCount vol.toGeometry chain ↔
    i / perSect < tableLength vol.toGeometry chain ∧ i < 2 ^ 16 := by
  unfold entryCount
  rw [lt_min_iff, Nat.div_lt_iff_lt_mul (by decide), Nat.mul_comm]

/-- The sectors of a directory are not those of the FAT. -/
theorem Directory.sector {sclust : Nat} (h : Directory vol s sclust chain)
    (hk : k < tableLength vol.toGeometry chain) :
    vol.fatbase + vol.nFats * vol.fsize ≤ tableSect vol.toGeometry chain k ∧
      tableSect vol.toGeometry chain k < vol.database + (vol.nFatent - 2) * vol.csize := by
  unfold tableLength at hk
  unfold tableSect
  have hbelow := vol.fats_below
  split
  next hnil =>
    rw [if_pos hnil] at hk
    obtain ⟨-, -, habove, hfits⟩ := h.root hnil
    omega
  next hne =>
    rw [if_neg hne] at hk
    obtain ⟨c, hc⟩ := exists_cluster hk
    rw [fileSect_eq hc]
    have hdata := clust2sect_data (h.linked.2 c (List.mem_of_getElem? hc))
      (Nat.mod_lt k vol.csize_pos)
    omega

theorem Directory.counts {sclust j : Nat} (h : Directory vol s sclust chain)
    (hk : k < tableLength vol.toGeometry chain) (hj : j < ss) :
    vol.Counts (ss * tableSect vol.toGeometry chain k + j) := by
  have hsector := h.sector hk
  have hfits := vol.data_fits
  constructor
  · unfold noSector ss at *
    omega
  · rintro ⟨-, hhigh⟩
    unfold ss at *
    omega

/-- A directory has entries. -/
theorem Directory.entries {sclust : Nat} (h : Directory vol s sclust chain) :
    0 < entryCount vol.toGeometry chain := by
  rw [lt_entryCount, Nat.zero_div]
  refine ⟨?_, by decide⟩
  unfold tableLength
  split
  next hnil =>
    obtain ⟨hpos, hmod, -⟩ := h.root hnil
    rw [perSect_eq] at *
    omega
  next hne => exact Nat.mul_pos (List.length_pos_iff.mpr hne) vol.csize_pos

theorem DirAt.sect_ne_zero {sclust : Nat} (hat : DirAt vol chain dp i)
    (hdir : Directory vol s sclust chain) : dp.sect ≠ 0 := by
  have hsector := hdir.sector (lt_entryCount.mp hat.bound).1
  have hreserved := vol.reserved
  rw [hat.sect]
  omega

/-! One step. -/

/-- The entry of a cluster of a chain is the next one, or the mark of the end behind the
last one. -/
theorem Chain.next_cluster {m c : Nat} (h : Chain vol s chain) (hc : chain[m]? = some c) :
    chain[m + 1]? = some (fatEntry vol.toGeometry s.view c) ∨
      m + 1 = chain.length ∧ vol.nFatent ≤ fatEntry vol.toGeometry s.view c := by
  obtain ⟨hm, rfl⟩ := List.getElem?_eq_some_iff.mp hc
  by_cases hnext : m + 1 < chain.length
  · left
    rw [List.getElem?_eq_getElem hnext, h.1.next_eq hnext]
  · right
    have hdrop : chain.drop m = [chain[m]] := by
      rw [List.drop_eq_getElem_cons hm, List.drop_of_length_le (by omega)]
    have hlinked : Linked (fatEntry vol.toGeometry s.view) (vol.nFatent ≤ ·)
        (chain.take m ++ chain.drop m) := by
      rw [List.take_append_drop]
      exact h.1
    rw [hdrop] at hlinked
    exact ⟨by omega, hlinked.last⟩

theorem dirAt_at (hbound : i < entryCount vol.toGeometry chain)
    (hclust : dp.clust = chain.getD (i / perSect / vol.csize) 0)
    (hsect : dp.sect = tableSect vol.toGeometry chain (i / perSect)) :
    DirAt vol chain (dp.at i) i where
  index := Nat.mod_eq_of_lt (lt_entryCount.mp hbound).2
  bound := hbound
  clust := hclust
  sect := hsect
  dir := rfl

/-- The next sector of the table of the root. -/
theorem root_next {sclust : Nat} (hdir : Directory vol s sclust [])
    (hat : dp.sect = tableSect vol.toGeometry [] k)
    (hlt : k < tableLength vol.toGeometry []) :
    word (dp.sect + 1) = tableSect vol.toGeometry [] (k + 1) := by
  have hsector := hdir.sector hlt
  have hfits := vol.data_fits
  rw [hat]
  unfold tableSect at *
  rw [if_pos rfl] at *
  unfold word
  rw [if_pos rfl, Nat.mod_eq_of_lt (by omega), Nat.add_assoc]

/-- The next number is in the same tile, or it starts the next one. -/
theorem succ_tile {n : Nat} (hn : 0 < n) :
    (k + 1) % n ≠ 0 ∧ k % n + 1 < n ∨
      (k + 1) % n = 0 ∧ k + 1 = n * (k / n + 1) ∧ (k + 1) / n = k / n + 1 := by
  have hmod := Nat.mod_lt k hn
  have hk := Nat.div_add_mod k n
  by_cases hinside : k % n + 1 < n
  · left
    refine ⟨?_, hinside⟩
    rw [← Nat.mod_add_mod, Nat.mod_eq_of_lt hinside]
    exact Nat.succ_ne_zero _
  · right
    have hround : k + 1 = n * (k / n + 1) := by
      rw [Nat.mul_succ]
      omega
    refine ⟨?_, hround, ?_⟩
    · rw [hround, Nat.mul_mod_right]
    · rw [hround, Nat.mul_div_cancel_left _ hn]

/-- What `dir_next` can do where it does not stretch the table. -/
def NextResult (faults : Faults) (vol : Volume) (chain : List Nat) (i : Nat) (dp' : Dir)
    (r : DirResult) : Prop :=
  r = .res .ok ∧ DirAt vol chain dp' (i + 1) ∨
    r = .noFile ∧ entryCount vol.toGeometry chain ≤ i + 1 ∨ r = .res .diskErr ∧ Faulty faults

/-- A call of `dir_next` at entry `i` that does not stretch the table. -/
def NextCall (faults : Faults) (vol : Volume) (chain : List Nat) (s : FatFs) (dp : Dir)
    (i : Nat) : Prop :=
  ∃ s' dp' r, dirNext faults vol.toGeometry s dp false = some (s', dp', r) ∧
    Walked vol chain s s' ∧ SameDir dp dp' ∧ NextResult faults vol chain i dp' r

theorem DirAt.inside {sclust : Nat} (hat : DirAt vol chain dp i)
    (hdir : Directory vol s sclust chain) (hi : i + 1 < 2 ^ 16) :
    ¬ ((i + 1) % 2 ^ 16 = 0 ∨ dp.sect = 0) := by
  rw [Nat.mod_eq_of_lt hi]
  exact fun h => h.elim (Nat.succ_ne_zero i) (hat.sect_ne_zero hdir)

theorem nextCall_sector {sclust : Nat} (hc : Coherent s) (hdir : Directory vol s sclust chain)
    (hat : DirAt vol chain dp i) (hi : i + 1 < 2 ^ 16) (hsame : (i + 1) % perSect ≠ 0) :
    NextCall faults vol chain s dp i := by
  have hdiv : (i + 1) / perSect = i / perSect := by
    rw [perSect_eq] at hsame ⊢
    omega
  unfold NextCall dirNext
  dsimp only
  rw [hat.index, if_neg (hat.inside hdir hi), if_pos hsame]
  refine ⟨s, _, _, rfl, .refl hc, ⟨rfl, rfl⟩, .inl ⟨rfl, dirAt_at ?_ ?_ ?_⟩⟩
  · rw [lt_entryCount, hdiv]
    exact ⟨(lt_entryCount.mp hat.bound).1, hi⟩
  · rw [hdiv, hat.clust]
  · rw [hdiv, hat.sect]

theorem sector_change (hchange : (i + 1) % perSect = 0) :
    (i + 1) / perSect = i / perSect + 1 := by
  rw [perSect_eq] at hchange ⊢
  omega

theorem nextCall_root {sclust : Nat} (hc : Coherent s) (hdir : Directory vol s sclust [])
    (hat : DirAt vol [] dp i) (hi : i + 1 < 2 ^ 16) (hchange : (i + 1) % perSect = 0) :
    NextCall faults vol [] s dp i := by
  have hdiv := sector_change hchange
  have hclust : dp.clust = 0 := by
    rw [hat.clust]
    rfl
  obtain ⟨-, hmod, -, -⟩ := hdir.root rfl
  have hlength : tableLength vol.toGeometry [] = vol.nRootdir / perSect := if_pos rfl
  unfold NextCall dirNext
  dsimp only
  rw [hat.index, if_neg (hat.inside hdir hi), if_neg (not_not.mpr hchange), if_pos hclust]
  by_cases hend : vol.nRootdir ≤ i + 1
  · rw [if_pos hend]
    refine ⟨s, _, _, rfl, .refl hc, ⟨rfl, rfl⟩, .inr (.inl ⟨rfl, Nat.le_of_not_lt fun hlt => ?_⟩)⟩
    have hlt := (lt_entryCount.mp hlt).1
    rw [hlength] at hlt
    rw [perSect_eq] at hlt
    omega
  · rw [if_neg hend]
    refine ⟨s, _, _, rfl, .refl hc, ⟨rfl, rfl⟩, .inl ⟨rfl, dirAt_at ?_ ?_ ?_⟩⟩
    · rw [lt_entryCount, hlength]
      rw [perSect_eq] at hmod ⊢
      omega
    · exact hclust
    · rw [hdiv]
      exact root_next hdir hat.sect (lt_entryCount.mp hat.bound).1

theorem nextCall_chain {sclust : Nat} (hc : Coherent s) (hdir : Directory vol s sclust chain)
    (hat : DirAt vol chain dp i) (hi : i + 1 < 2 ^ 16) (hchange : (i + 1) % perSect = 0)
    (hchain : chain ≠ []) : NextCall faults vol chain s dp i := by
  have hk := (lt_entryCount.mp hat.bound).1
  have hsector := hdir.sector hk
  have hdiv := sector_change hchange
  have hlength : tableLength vol.toGeometry chain = chain.length * vol.csize := if_neg hchain
  rw [hlength] at hk
  obtain ⟨c, hcluster⟩ := exists_cluster hk
  have hrange := hdir.linked.2 c (List.mem_of_getElem? hcluster)
  have hclust : dp.clust = c := by
    rw [hat.clust, List.getD_eq_getElem?_getD, hcluster, Option.getD_some]
  obtain ⟨p, hp, hcsize⟩ := vol.csize_pow
  have hand : (i + 1) / perSect &&& (vol.csize - 1) = (i / perSect + 1) % vol.csize := by
    rw [hdiv, hcsize, Nat.and_two_pow_sub_one_eq_mod]
  unfold NextCall dirNext
  dsimp only
  rw [hat.index, if_neg (hat.inside hdir hi), if_neg (not_not.mpr hchange),
    if_neg (by rw [hclust]; omega), hand]
  have hcsect := hat.sect
  have hdclust := hat.clust
  have htable : ∀ j, tableSect vol.toGeometry chain j = fileSect vol.toGeometry chain j :=
    fun j => if_neg hchain
  rw [htable] at hsector hcsect
  generalize i / perSect = k at *
  rcases succ_tile (k := k) vol.csize_pos with ⟨hne, hroom⟩ | ⟨hzero, hround, hnext⟩
  · -- the same cluster
    rw [if_pos hne]
    have hadd := fileSect_add vol.toGeometry chain hroom
    have hfits := vol.data_fits
    refine ⟨s, _, _, rfl, .refl hc, ⟨rfl, rfl⟩, .inl ⟨rfl, dirAt_at ?_ ?_ ?_⟩⟩
    · rw [lt_entryCount, hdiv, hlength]
      rw [← Nat.div_lt_iff_lt_mul vol.csize_pos] at hk ⊢
      rw [div_add_inside hroom]
      exact ⟨hk, hi⟩
    · rw [hdiv, div_add_inside hroom]
      exact hdclust
    · rw [hdiv, htable, hadd]
      dsimp only
      rw [hcsect, word, Nat.mod_eq_of_lt (by omega)]
  · rw [if_neg (not_not.mpr hzero), hclust]
    have hstays := getFat_stays faults vol s c
    generalize hget : getFat faults vol.toGeometry s c = got at hstays
    obtain ⟨s₁, v⟩ := got
    dsimp only at hstays ⊢
    obtain ⟨hsame, rfl | ⟨rfl, hfaulty⟩⟩ := getFat_spec hc hrange.1 hrange.2 hget
    all_goals have hkept : Walked vol chain s s₁ := ⟨hsame, .inl hstays⟩
    · have hsmall := fatEntry_lt vol.toGeometry s.view c
      have htwo := hdir.linked.entry_cases (List.mem_of_getElem? hcluster)
      rw [if_neg (by omega), if_neg (by unfold diskError; omega)]
      rcases hdir.linked.next_cluster hcluster with hlink | ⟨hlast, hend⟩
      · have hrange' := hdir.linked.2 _ (List.mem_of_getElem? hlink)
        have hlt := (List.getElem?_eq_some_iff.mp hlink).1
        rw [if_neg (Nat.not_le.mpr hrange'.2)]
        have hvalue : fatEntry vol.toGeometry s.view c = chain.getD ((k + 1) / vol.csize) 0 := by
          rw [hnext, List.getD_eq_getElem?_getD, hlink, Option.getD_some]
        refine ⟨s₁, _, _, rfl, hkept, ⟨rfl, rfl⟩, .inl ⟨rfl, dirAt_at ?_ ?_ ?_⟩⟩
        · rw [lt_entryCount, hdiv, hlength, ← Nat.div_lt_iff_lt_mul vol.csize_pos, hnext]
          exact ⟨hlt, hi⟩
        · rw [hdiv]
          exact hvalue
        · rw [hdiv, htable]
          unfold fileSect
          rw [← hvalue, hzero, Nat.add_zero]
      · rw [if_pos hend]
        refine ⟨s₁, _, _, rfl, hkept, ⟨rfl, rfl⟩,
          .inr (.inl ⟨rfl, Nat.le_of_not_lt fun hlt => ?_⟩)⟩
        have hlt := (lt_entryCount.mp hlt).1
        rw [hdiv, hlength, ← Nat.div_lt_iff_lt_mul vol.csize_pos, hnext] at hlt
        omega
    · rw [if_neg (by decide), if_pos rfl]
      exact ⟨s₁, _, _, rfl, hkept, ⟨rfl, rfl⟩, .inr (.inr ⟨rfl, hfaulty⟩)⟩

theorem dirNext_spec {sclust : Nat} (hc : Coherent s) (hdir : Directory vol s sclust chain)
    (hat : DirAt vol chain dp i) : NextCall faults vol chain s dp i := by
  by_cases hfull : i + 1 = 2 ^ 16
  · unfold NextCall dirNext
    dsimp only
    rw [hat.index, if_pos (.inl (by rw [hfull, Nat.mod_self]))]
    refine ⟨s, dp, _, rfl, .refl hc, ⟨rfl, rfl⟩, .inr (.inl ⟨rfl, ?_⟩)⟩
    rw [hfull]
    exact Nat.min_le_right _ _
  have hi : i + 1 < 2 ^ 16 := by
    have hlt := (lt_entryCount.mp hat.bound).2
    omega
  by_cases hchange : (i + 1) % perSect = 0
  · by_cases hchain : chain = []
    · subst hchain
      exact nextCall_root hc hdir hat hi hchange
    · exact nextCall_chain hc hdir hat hi hchange hchain
  · exact nextCall_sector hc hdir hat hi hchange

/-- From whatever place, a call returns, changes nothing and goes on by one entry at most. -/
theorem dirNext_returns (faults : Faults) (vol : Volume) (hc : Coherent s) (dp : Dir) :
    ∃ s' dp' r, dirNext faults vol.toGeometry s dp false = some (s', dp', r) ∧
      Kept vol.toGeometry s s' ∧ SameDir dp dp' ∧
      (r = .res .ok ∧ dp.index + 1 ≠ 2 ^ 16 ∧ dp'.index = (dp.index + 1) % 2 ^ 16 ∨
        r ≠ .res .ok ∧ dp'.index = dp.index) := by
  unfold dirNext
  dsimp only
  by_cases hend : (dp.index + 1) % 2 ^ 16 = 0 ∨ dp.sect = 0
  · rw [if_pos hend]
    exact ⟨s, dp, _, rfl, .refl hc, ⟨rfl, rfl⟩, .inr ⟨by simp, rfl⟩⟩
  rw [if_neg hend]
  have hne : dp.index + 1 ≠ 2 ^ 16 := fun heq => hend (.inl (by rw [heq, Nat.mod_self]))
  by_cases hsame : (dp.index + 1) % perSect ≠ 0
  · rw [if_pos hsame]
    exact ⟨s, _, _, rfl, .refl hc, ⟨rfl, rfl⟩, .inl ⟨rfl, hne, rfl⟩⟩
  rw [if_neg hsame]
  by_cases hroot : dp.clust = 0
  · rw [if_pos hroot]
    by_cases hlast : vol.nRootdir ≤ dp.index + 1
    · rw [if_pos hlast]
      exact ⟨s, _, _, rfl, .refl hc, ⟨rfl, rfl⟩, .inr ⟨by simp, rfl⟩⟩
    · rw [if_neg hlast]
      exact ⟨s, _, _, rfl, .refl hc, ⟨rfl, rfl⟩, .inl ⟨rfl, hne, rfl⟩⟩
  rw [if_neg hroot]
  by_cases hinside : (dp.index + 1) / perSect &&& (vol.csize - 1) ≠ 0
  · rw [if_pos hinside]
    exact ⟨s, _, _, rfl, .refl hc, ⟨rfl, rfl⟩, .inl ⟨rfl, hne, rfl⟩⟩
  rw [if_neg hinside]
  have hkept := getFat_kept faults vol hc dp.clust
  generalize getFat faults vol.toGeometry s dp.clust = got at hkept ⊢
  obtain ⟨s₁, clst⟩ := got
  dsimp only at hkept ⊢
  by_cases hbroken : clst ≤ 1
  · rw [if_pos hbroken]
    exact ⟨s₁, _, _, rfl, hkept, ⟨rfl, rfl⟩, .inr ⟨by simp, rfl⟩⟩
  rw [if_neg hbroken]
  by_cases hfailed : clst = diskError
  · rw [if_pos hfailed]
    exact ⟨s₁, _, _, rfl, hkept, ⟨rfl, rfl⟩, .inr ⟨by simp, rfl⟩⟩
  rw [if_neg hfailed]
  by_cases hlast : vol.nFatent ≤ clst
  · rw [if_pos hlast, if_neg (by simp)]
    exact ⟨s₁, _, _, rfl, hkept, ⟨rfl, rfl⟩, .inr ⟨by simp, rfl⟩⟩
  · rw [if_neg hlast]
    exact ⟨s₁, _, _, rfl, hkept, ⟨rfl, rfl⟩, .inl ⟨rfl, hne, rfl⟩⟩

/-! The start of a walk. -/

theorem sdiLoop_spec {fuel clst idx m : Nat} (hc : Coherent s) (hchain : Chain vol s chain)
    (hclst : chain[m]? = some clst) (hidx : m + idx / (perSect * vol.csize) < chain.length)
    (hfuel : idx < fuel) :
    ∃ s' r, sdiLoop faults vol.toGeometry fuel s clst idx = some (s', r) ∧
      Walked vol chain s s' ∧
      ((∃ c, chain[m + idx / (perSect * vol.csize)]? = some c ∧
          r = .ok (c, idx % (perSect * vol.csize))) ∨ r = .error .diskErr ∧ Faulty faults) := by
  have hic : 0 < perSect * vol.csize := Nat.mul_pos (by decide) vol.csize_pos
  induction fuel generalizing s clst idx m with
  | zero => exact absurd hfuel (Nat.not_lt_zero idx)
  | succ fuel ih =>
    unfold sdiLoop
    dsimp only
    by_cases hmore : perSect * vol.csize ≤ idx
    · rw [if_pos hmore]
      have hdiv := Nat.div_eq_sub_div hic hmore
      have hrange := hchain.2 clst (List.mem_of_getElem? hclst)
      have hstays := getFat_stays faults vol s clst
      generalize hget : getFat faults vol.toGeometry s clst = got at hstays
      obtain ⟨s₁, v⟩ := got
      dsimp only at hstays ⊢
      obtain ⟨hsame, rfl | ⟨rfl, hfaulty⟩⟩ := getFat_spec hc hrange.1 hrange.2 hget
      all_goals have hkept : Walked vol chain s s₁ := ⟨hsame, .inl hstays⟩
      · rcases hchain.next_cluster hclst with hlink | ⟨hlast, -⟩
        · have hrange' := hchain.2 _ (List.mem_of_getElem? hlink)
          have hsmall := fatEntry_lt vol.toGeometry s.view clst
          rw [if_neg (by unfold diskError; omega), if_neg (by omega)]
          obtain ⟨s₂, r, hloop, hkept₂, hresult⟩ := @ih s₁ _ (idx - perSect * vol.csize) (m + 1)
            hkept.coherent (hchain.congr fun c hcs => hkept.entry (hchain.2 c hcs).2) hlink
            (by omega) (by omega)
          refine ⟨s₂, r, hloop, hkept.trans hkept₂, ?_⟩
          rw [← Nat.mod_eq_sub_mod hmore] at hresult
          rwa [hdiv, ← Nat.add_assoc, Nat.add_right_comm]
        · rw [hdiv] at hidx
          rw [← hlast, ← Nat.add_assoc, Nat.add_right_comm] at hidx
          exact absurd hidx (Nat.not_lt.mpr (Nat.le_add_right _ _))
      · rw [if_pos rfl]
        exact ⟨s₁, _, rfl, hkept, .inr ⟨rfl, hfaulty⟩⟩
    · rw [if_neg hmore]
      have hlt := Nat.lt_of_not_le hmore
      refine ⟨s, _, rfl, .refl hc, .inl ⟨clst, ?_, ?_⟩⟩
      · rw [Nat.div_eq_of_lt hlt]
        exact hclst
      · rw [Nat.mod_eq_of_lt hlt]

theorem dirPlace_eq {clst sect idx : Nat} (hsect : sect ≠ 0) :
    dirPlace s dp clst sect idx = (s, { dp with
      clust := clst
      sect := word (sect + idx / perSect)
      dir := idx % perSect * szDire }, .res .ok) := if_neg hsect

theorem dirSdi_spec {idx : Nat} (hc : Coherent s) (hdir : Directory vol s dp.sclust chain)
    (hidx : idx < entryCount vol.toGeometry chain) :
    ∃ s' dp' r, dirSdi faults vol.toGeometry s dp idx = some (s', dp', r) ∧
      Walked vol chain s s' ∧ SameDir dp dp' ∧
      (r = .res .ok ∧ DirAt vol chain dp' idx ∨ r = .res .diskErr ∧ Faulty faults) := by
  obtain ⟨hk, hword⟩ := lt_entryCount.mp hidx
  obtain ⟨hone, hstart, hhead⟩ := hdir.start
  have hsector := hdir.sector hk
  have hreserved := vol.reserved
  have hfits := vol.data_fits
  unfold dirSdi
  dsimp only
  rw [if_neg (by omega), hhead]
  cases chain with
  | nil =>
    obtain ⟨-, -, habove, -⟩ := hdir.root rfl
    have hlength : tableLength vol.toGeometry [] = vol.nRootdir / perSect := if_pos rfl
    rw [hlength] at hk
    rw [List.headD_nil, if_pos rfl, if_neg (by rw [perSect_eq] at hk; omega)]
    rw [dirPlace_eq (by omega)]
    refine ⟨s, _, _, rfl, .refl hc, ⟨rfl, rfl⟩, .inl ⟨rfl, ?_⟩⟩
    have hsect : tableSect vol.toGeometry [] (idx / perSect) = vol.dirbase + idx / perSect :=
      if_pos rfl
    rw [hsect] at hsector
    refine ⟨Nat.mod_eq_of_lt hword, hidx, rfl, ?_, rfl⟩
    rw [hsect]
    exact Nat.mod_eq_of_lt (by omega)
  | cons first rest =>
    have hlength : tableLength vol.toGeometry (first :: rest) =
      (first :: rest).length * vol.csize := if_neg (List.cons_ne_nil first rest)
    have htable : tableSect vol.toGeometry (first :: rest) (idx / perSect) =
      fileSect vol.toGeometry (first :: rest) (idx / perSect) :=
        if_neg (List.cons_ne_nil first rest)
    rw [hlength, ← Nat.div_lt_iff_lt_mul vol.csize_pos, Nat.div_div_eq_div_mul] at hk
    have hfirst := hdir.linked.2 first List.mem_cons_self
    rw [List.headD_cons, if_neg (by omega)]
    obtain ⟨s₁, r, hloop, hkept, hresult⟩ := @sdiLoop_spec faults vol s (first :: rest) (idx + 1)
      first idx 0 hc hdir.linked rfl (by rw [Nat.zero_add]; exact hk) (Nat.lt_succ_self idx)
    rw [hloop]
    rcases hresult with ⟨c, hcluster, rfl⟩ | ⟨rfl, hfaulty⟩
    · rw [Nat.zero_add, ← Nat.div_div_eq_div_mul] at hcluster
      have hrange := hdir.linked.2 c (List.mem_of_getElem? hcluster)
      have hdata := clust2sect_data hrange (Nat.mod_lt (idx / perSect) vol.csize_pos)
      have hbase := clust2sect_data hrange vol.csize_pos
      have hbelow := vol.fats_below
      simp only [Option.bind_eq_bind, Option.bind_some]
      rw [dirPlace_eq (by omega)]
      refine ⟨s₁, _, _, rfl, hkept, ⟨rfl, rfl⟩,
        .inl ⟨rfl, Nat.mod_eq_of_lt hword, hidx, ?_, ?_, ?_⟩⟩
      · dsimp only
        rw [List.getD_eq_getElem?_getD, hcluster, Option.getD_some]
      · dsimp only
        rw [htable, fileSect_eq hcluster, Nat.mod_mul_right_div_self, word,
          Nat.mod_eq_of_lt (by omega)]
      · dsimp only
        rw [Nat.mod_mul_right_mod]
    · exact ⟨s₁, _, _, rfl, hkept, ⟨rfl, rfl⟩, .inr ⟨rfl, hfaulty⟩⟩

/-! The search. -/

/-- The window at the sector of an entry shows its bytes. -/
theorem window_entry {sclust t : Nat} {mem : Memory} (hdir : Directory vol s sclust chain)
    (hmem : ∀ x, vol.Counts x → s.view x = mem x) (hat : DirAt vol chain dp i)
    (hwin : s.winsect = dp.sect) (ht : t < szDire) :
    s.win (dp.dir + t) = mem (entryAt vol.toGeometry chain i + t) := by
  have hoffset : dp.dir + t < ss := by
    rw [hat.dir]
    have hmod : i % perSect < perSect := Nat.mod_lt i (by decide)
    rw [perSect_eq] at *
    unfold szDire ss at *
    omega
  rw [← view_window hoffset, hwin, hat.sect, hmem _ (hdir.counts (lt_entryCount.mp hat.bound).1
    hoffset), hat.dir]
  unfold entryAt
  rw [Nat.add_assoc]

/-- An entry is known by its bytes. -/
theorem name_congr {mem mem' : Memory} {a a' : Nat}
    (h : ∀ t < szDire, mem (a + t) = mem' (a' + t)) : read mem a 11 = read mem' a' 11 := by
  apply List.map_congr_left
  intro t ht
  rw [List.mem_range] at ht
  exact h t (by unfold szDire; omega)

/-- What `dir_find` returns for a table that holds `mem`. -/
def FindResult (faults : Faults) (vol : Volume) (chain : List Nat) (mem : Memory) (fn : List Byte)
    (s' : FatFs) (dp' : Dir) (r : DirResult) : Prop :=
  (r = .res .ok ∧ ∃ i, DirAt vol chain dp' i ∧ s'.winsect = dp'.sect ∧
    Names mem fn (entryAt vol.toGeometry chain i) ∧
    (∀ j ≤ i, mem (entryAt vol.toGeometry chain j) ≠ 0) ∧
    ∀ j < i, ¬ Names mem fn (entryAt vol.toGeometry chain j)) ∨
  (r = .noFile ∧ ∀ i < entryCount vol.toGeometry chain,
    Names mem fn (entryAt vol.toGeometry chain i) →
      ∃ j ≤ i, mem (entryAt vol.toGeometry chain j) = 0) ∨
  r = .res .diskErr ∧ Faulty faults

theorem findLoop_spec {sclust fuel : Nat} {mem : Memory} (hc : Coherent s)
    (hdir : Directory vol s sclust chain) (hmem : ∀ x, vol.Counts x → s.view x = mem x)
    (hat : DirAt vol chain dp i) (hfuel : entryCount vol.toGeometry chain ≤ i + fuel)
    (hbefore : ∀ j < i, mem (entryAt vol.toGeometry chain j) ≠ 0 ∧
      ¬ Names mem dp.fn (entryAt vol.toGeometry chain j)) :
    ∃ s' dp' r, findLoop faults vol.toGeometry fuel s dp = some (s', dp', r) ∧
      Walked vol chain s s' ∧ SameDir dp dp' ∧
      FindResult faults vol chain mem dp.fn s' dp' r := by
  induction fuel generalizing s dp i with
  | zero => exact absurd hat.bound (Nat.not_lt.mpr hfuel)
  | succ fuel ih =>
    unfold findLoop
    generalize hmove : moveWindow faults vol.toGeometry s dp.sect = moved
    obtain ⟨s₁, r₁⟩ := moved
    dsimp only
    rw [hat.sect] at hmove
    obtain ⟨hkept, hmoved⟩ := moveWindow_walked hc (lt_entryCount.mp hat.bound).1 hmove
    rw [← hat.sect] at hmoved
    obtain ⟨rfl, hwin⟩ | ⟨rfl, hfaulty⟩ := hmoved
    · rw [if_neg (not_not.mpr rfl)]
      have hdir₁ := hkept.directory hdir
      have hmem₁ : ∀ x, vol.Counts x → s₁.view x = mem x := fun x hx =>
        (hkept.view x hx).trans (hmem x hx)
      have hentry : ∀ t < szDire, s₁.win (dp.dir + t) = mem (entryAt vol.toGeometry chain i + t) :=
        fun t ht => window_entry hdir₁ hmem₁ hat hwin ht
      have hfirst := hentry 0 (by decide)
      rw [Nat.add_zero, Nat.add_zero] at hfirst
      have hname := name_congr hentry
      rw [hfirst, hentry dirAttr (by decide), hname]
      by_cases hend : mem (entryAt vol.toGeometry chain i) = 0
      · rw [if_pos hend]
        refine ⟨s₁, dp, _, rfl, hkept, ⟨rfl, rfl⟩,
          .inr (.inl ⟨rfl, fun j _ hnames => ⟨i, ?_, hend⟩⟩)⟩
        by_contra hlt
        exact (hbefore j (by omega)).2 hnames
      rw [if_neg hend]
      by_cases hnames : Names mem dp.fn (entryAt vol.toGeometry chain i)
      · rw [if_pos ⟨hnames.1, hnames.2⟩]
        refine ⟨s₁, dp, _, rfl, hkept, ⟨rfl, rfl⟩, .inl ⟨rfl, i, hat, hwin, hnames, fun j hj => ?_,
          fun j hj => (hbefore j hj).2⟩⟩
        rcases Nat.lt_or_eq_of_le hj with hlt | rfl
        · exact (hbefore j hlt).1
        · exact hend
      · have hother := hnames
        unfold Names at hother
        rw [if_neg hother]
        have hbefore₁ : ∀ j < i + 1, mem (entryAt vol.toGeometry chain j) ≠ 0 ∧
            ¬ Names mem dp.fn (entryAt vol.toGeometry chain j) := by
          intro j hj
          rcases Nat.lt_or_eq_of_le (Nat.le_of_lt_succ hj) with hlt | rfl
          · exact hbefore j hlt
          · exact ⟨hend, hnames⟩
        obtain ⟨s₂, dp₂, r₂, hnext, hkept₂, hsame, hresult⟩ :=
          @dirNext_spec faults vol s₁ chain dp i sclust hkept.coherent hdir₁ hat
        rw [hnext]
        simp only [Option.bind_eq_bind, Option.bind_some]
        rcases hresult with ⟨rfl, hat₂⟩ | ⟨rfl, hlast⟩ | ⟨rfl, hfaulty⟩
        · rw [if_pos rfl]
          rw [← hsame.fn] at hbefore₁ ⊢
          obtain ⟨s₃, dp₃, r₃, hloop, hkept₃, hsame₃, hfound⟩ := ih hkept₂.coherent
            (hkept₂.directory hdir₁) (fun x hx => (hkept₂.view x hx).trans (hmem₁ x hx)) hat₂
            (by omega) hbefore₁
          exact ⟨s₃, dp₃, r₃, hloop, (hkept.trans hkept₂).trans hkept₃, hsame.trans hsame₃, hfound⟩
        · rw [if_neg (by decide)]
          refine ⟨s₂, dp₂, _, rfl, hkept.trans hkept₂, hsame,
            .inr (.inl ⟨rfl, fun j hj hn => ?_⟩)⟩
          exact absurd hn (hbefore₁ j (by omega)).2
        · rw [if_neg (by decide)]
          exact ⟨s₂, dp₂, _, rfl, hkept.trans hkept₂, hsame, .inr (.inr ⟨rfl, hfaulty⟩)⟩
    · rw [if_pos (by decide)]
      exact ⟨s₁, dp, _, rfl, hkept, ⟨rfl, rfl⟩, .inr (.inr ⟨rfl, hfaulty⟩)⟩

theorem dirFind_spec (faults : Faults) (hc : Coherent s)
    (hdir : Directory vol s dp.sclust chain) :
    ∃ s' dp' r, dirFind faults vol.toGeometry s dp = some (s', dp', r) ∧
      Walked vol chain s s' ∧ SameDir dp dp' ∧
      FindResult faults vol chain s.view dp.fn s' dp' r := by
  obtain ⟨s₁, dp₁, r₁, hsdi, hkept, hsame, hresult⟩ :=
    @dirSdi_spec faults vol s chain dp 0 hc hdir hdir.entries
  unfold dirFind
  rw [hsdi]
  simp only [Option.bind_eq_bind, Option.bind_some]
  rcases hresult with ⟨rfl, hat⟩ | ⟨rfl, hfaulty⟩
  · rw [if_pos rfl, ← hsame.fn]
    obtain ⟨s₂, dp₂, r₂, hloop, hkept₂, hsame₂, hfound⟩ := @findLoop_spec faults vol s₁ chain dp₁ 0
      dp.sclust (2 ^ 16) s.view hkept.coherent (hkept.directory hdir) hkept.view hat
      (by rw [Nat.zero_add]; exact Nat.min_le_right _ _) fun j hj => absurd hj (Nat.not_lt_zero j)
    exact ⟨s₂, dp₂, r₂, hloop, hkept.trans hkept₂, hsame.trans hsame₂, hfound⟩
  · rw [if_neg (by decide)]
    exact ⟨s₁, dp₁, _, rfl, hkept, hsame, .inr (.inr ⟨rfl, hfaulty⟩)⟩

/-- `dir_find` returns with the first entry of the name if there is one before the end of the
directory, in the table of the root as in a chain of clusters, and changes nothing. It fails
only where a request failed. -/
theorem dirFind_first (faults : Faults) (hc : Coherent s)
    (hdir : Directory vol s dp.sclust chain) :
    ∃ s' dp' r, dirFind faults vol.toGeometry s dp = some (s', dp', r) ∧
      Kept vol.toGeometry s s' ∧ FindResult faults vol chain s.view dp.fn s' dp' r := by
  obtain ⟨s', dp', r, hcall, hwalked, -, hfound⟩ := dirFind_spec faults hc hdir
  exact ⟨s', dp', r, hcall, hwalked.toKept, hfound⟩

/-- A label and a file of the same name in the root. -/
def labelFs : FatFs :=
  let name : List Byte := [0x41, 0x20, 0x20, 0x20, 0x20, 0x20, 0x20, 0x20, 0x54, 0x58, 0x54]
  let mem := write (fun _ => 0) (ss * 3) (name ++ [0x08])
  { blankFs with drive := ⟨write mem (ss * 3 + 32) (name ++ [0x20]), 0⟩ }

/-- An object for the root that looks for `A.TXT`. -/
def rootDir : Dir :=
  ⟨0, 0, 0, 0, 0, [0x41, 0x20, 0x20, 0x20, 0x20, 0x20, 0x20, 0x20, 0x54, 0x58, 0x54]⟩

theorem labelFs_coherent : Coherent labelFs where
  clean _ hsector := absurd rfl hsector
  valid hdirty := by cases hdirty

theorem labelFs_root : Directory smallVolume labelFs 0 [] where
  linked := ⟨trivial, fun c hc => by cases hc⟩
  start := by decide
  root _ := by decide

/-- The label is passed over. -/
theorem dirFind_first_label : ∃ s' dp', dirFind (fun _ => none) smallVolume.toGeometry labelFs
      rootDir = some (s', dp', .res .ok) ∧ dp'.index = 1 ∧
    FindResult (fun _ => none) smallVolume [] labelFs.view rootDir.fn s' dp' (.res .ok) := by
  obtain ⟨s', dp', r, hcall, -, hfound⟩ :=
    @dirFind_first smallVolume labelFs [] rootDir (fun _ => none) labelFs_coherent labelFs_root
  have hfacts : (dirFind (fun _ => none) smallVolume.toGeometry labelFs rootDir).map
      (fun found => (found.2.1.index, found.2.2)) = some (1, .res .ok) := by decide +kernel
  rw [hcall] at hfacts
  obtain ⟨hindex, rfl⟩ := Prod.mk.inj (Option.some.inj hfacts)
  exact ⟨s', dp', hcall, hindex, hfound⟩

end PosixRtos.Fs
