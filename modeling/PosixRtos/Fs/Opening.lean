import PosixRtos.Fs.Stretching

/-! `f_open` with `FA_CREATE_NEW`. Its entry is put into the first free place of the directory
(`dir_alloc`, `dir_register`), whose table grows by a cluster where it is full. -/
namespace PosixRtos.Fs

open PosixRtos.Library.ByteMemory PosixRtos.Library.Overlay PosixRtos.Library.Chains
open PosixRtos.Heap (word sub32)

def ddem : Byte := 0xe5

def amRdo : Byte := 0x01

def amDir : Byte := 0x10

/-- `LD_WORD` -/
def load16 (mem : Memory) (a : Nat) : Nat := (mem a).toNat + 256 * (mem (a + 1)).toNat

/-- `ST_WORD` -/
def halfBytes (value : Nat) : List Byte := [BitVec.ofNat 8 value, BitVec.ofNat 8 (value / 256)]

/-- `ld_clust` -/
def ldClust (g : Geometry) (mem : Memory) (dir : Nat) : Nat :=
  let cl := load16 mem (dir + 26)
  if g.fsType = .fat32 then cl ||| load16 mem (dir + 20) <<< 16 else cl

/-- What `f_open` makes of the entry of a file that exists. The current cluster and the buffer
are not set. -/
def openedFile (g : Geometry) (faRead faWrite : Bool) (clust : Nat) (buf mem : Memory)
    (dir : Nat) : Fil :=
  ⟨faRead, faWrite, false, false, .ok, 0, load32 mem (dir + 28), ldClust g mem dir, clust, 0, buf⟩

section

variable (faults : Faults) (g : Geometry)

/-- The loop of `dir_alloc` for one entry. -/
def allocLoop : Nat → FatFs → Dir → Option (FatFs × Dir × DirResult)
  | 0, _, _ => none
  | fuel + 1, s, dp =>
      let (s, r) := moveWindow faults g s dp.sect
      if r ≠ .ok then some (s, dp, .res r)
      else if s.win dp.dir = ddem ∨ s.win dp.dir = 0 then some (s, dp, .res .ok)
      else do
        let (s, dp, r) ← dirNext faults g s dp true
        if r = .res .ok then allocLoop fuel s dp else some (s, dp, r)

def dirAlloc (s : FatFs) (dp : Dir) : Option (FatFs × Dir × DirResult) := do
  let (s, dp, r) ← dirSdi faults g s dp 0
  let (s, dp, r) ← if r = .res .ok then allocLoop faults g (2 ^ 16) s dp else some (s, dp, r)
  some (s, dp, if r = .noFile then .res .denied else r)

/-- `dir_register` for a short name. -/
def dirRegister (s : FatFs) (dp : Dir) : Option (FatFs × Dir × DirResult) := do
  let (s, dp, r) ← dirAlloc faults g s dp
  if r ≠ .res .ok then some (s, dp, r)
  else
    let (s, r) := moveWindow faults g s dp.sect
    if r ≠ .ok then some (s, dp, .res r)
    else some ((s.put dp.dir (List.replicate szDire 0)).put dp.dir (dp.fn.take 11), dp, .res .ok)

/-- What `f_open` writes into the entry in front of the start cluster. -/
def freshEntry (tm dir : Nat) (win : Memory) : Memory :=
  let win := store32 win (dir + 14) tm
  let win := store32 win (dir + 22) tm
  let win := write win (dir + dirAttr) [0]
  store32 win (dir + 28) 0

/-- `st_clust` -/
def stClust (dir cl : Nat) (win : Memory) : Memory :=
  write (write win (dir + 26) (halfBytes cl)) (dir + 20) (halfBytes (cl / 65536))

/-- `f_open` with `FA_CREATE_NEW`, from the directory on that its path has led to. With the file
it gives the place of the entry: `dir_sect` and `dir_ptr`. -/
def fOpenNew (s : FatFs) (dp : Dir) (faRead faWrite : Bool) (tm clust : Nat) (buf : Memory) :
    Option (FatFs × Except DirResult (Fil × Nat × Nat)) := do
  let (s, dp, r) ← dirFind faults g s dp
  if r = .res .ok then
    if s.win (dp.dir + dirAttr) &&& (amRdo ||| amDir) ≠ 0 then some (s, .error (.res .denied))
    else some (s, .error (.res .exist))
  else if r ≠ .noFile then some (s, .error r)
  else
    let (s, dp, r) ← dirRegister faults g s dp
    if r ≠ .res .ok then some (s, .error r)
    else
      let win := freshEntry tm dp.dir s.win
      let cl := ldClust g win dp.dir
      let s := { s with win := stClust dp.dir 0 win, wflag := true }
      let (s, r) ← if cl ≠ 0 then do
          let dw := s.winsect
          let (s, r) ← removeChain faults g s cl
          if r = .ok then some (moveWindow faults g { s with lastClust := cl - 1 } dw)
          else some (s, r)
        else some (s, .ok)
      if r ≠ .ok then some (s, .error (.res r))
      else
        let fp := openedFile g faRead faWrite clust buf s.win dp.dir
        some (s, .ok ({ fp with written := true }, s.winsect, dp.dir))

end

variable {faults : Faults} {vol : Volume} {s s' s'' : FatFs} {chain chain' chain'' : List Nat}
variable {dp dp' : Dir} {sclust i k c : Nat}

/-! A free entry. -/

/-- The object is at an entry of the directory. -/
def AtEntry (vol : Volume) (_ : FatFs) (chain' : List Nat) (dp' : Dir) : Prop :=
  ∃ i, DirAt vol chain' dp' i

theorem Tended.enlarged {P : FatFs → List Nat → Dir → Prop} {r : DirResult}
    (h : Tended faults vol s s' chain chain') (hbegins : chain <+: chain')
    (hlater : Enlarged faults vol s' sclust chain' P s'' dp' r) :
    Enlarged faults vol s sclust chain P s'' dp' r := by
  cases hlater with
  | found htended hmore hdir hP => exact .found (h.trans htended) (hbegins.trans hmore) hdir hP
  | full hr htended hmore hdir => exact .full hr (h.trans htended) (hbegins.trans hmore) hdir
  | failed he hfaulty htended => exact .failed he hfaulty (h.trans htended).lost

theorem allocLoop_spec {fuel : Nat} (hc : Coherent s) (hones : Faulty faults ∨ NoOnes vol s)
    (hdir : Directory vol s sclust chain) (hat : DirAt vol chain dp i)
    (hfuel : 2 ^ 16 ≤ i + fuel) :
    ∃ s' dp' r, allocLoop faults vol.toGeometry fuel s dp = some (s', dp', r) ∧ SameDir dp dp' ∧
      Enlarged faults vol s sclust chain (AtEntry vol) s' dp' r := by
  induction fuel generalizing s dp i chain with
  | zero => exact absurd (lt_entryCount.mp hat.bound).2 (Nat.not_lt.mpr hfuel)
  | succ fuel ih =>
    unfold allocLoop
    generalize hmove : moveWindow faults vol.toGeometry s dp.sect = moved
    obtain ⟨s₁, r₁⟩ := moved
    dsimp only
    rw [hat.sect] at hmove
    obtain ⟨hwalked, hmoved⟩ := moveWindow_walked hc (lt_entryCount.mp hat.bound).1 hmove
    have htended : Tended faults vol s s₁ chain chain := hwalked.tended hdir
    obtain ⟨rfl, -⟩ | ⟨rfl, hfaulty⟩ := hmoved
    · rw [if_neg (not_not.mpr rfl)]
      by_cases hfree : s₁.win dp.dir = ddem ∨ s₁.win dp.dir = 0
      · rw [if_pos hfree]
        exact ⟨s₁, dp, _, rfl, ⟨rfl, rfl⟩, .found htended (List.prefix_refl _)
          (hwalked.directory hdir) ⟨i, hat⟩⟩
      rw [if_neg hfree]
      obtain ⟨s₂, dp₂, r₂, hnext, hsame, hresult⟩ := dirNext_grows hwalked.coherent
        (htended.ones hones) (hwalked.directory hdir) hat
      rw [hnext]
      simp only [Option.bind_eq_bind, Option.bind_some]
      cases hresult with
      | found hgrown hbegins hdir₂ hat₂ =>
        rw [if_pos rfl]
        have hboth := htended.trans hgrown
        obtain ⟨s₃, dp₃, r₃, hloop, hsame₃, hlater⟩ := ih hgrown.elsewhere.coherent
          (hboth.ones hones) hdir₂ hat₂ (by omega)
        exact ⟨s₃, dp₃, r₃, hloop, hsame.trans hsame₃, hboth.enlarged hbegins hlater⟩
      | full hr hkept hbegins hdir₂ =>
        rw [if_neg (by rintro rfl; simp at hr)]
        exact ⟨s₂, dp₂, _, rfl, hsame, .full hr (htended.trans hkept) hbegins hdir₂⟩
      | failed he hfaulty hkept =>
        rw [if_neg (by rintro ⟨rfl⟩; simp at he)]
        exact ⟨s₂, dp₂, _, rfl, hsame, .failed he hfaulty (htended.trans hkept)⟩
    · rw [if_pos (by decide)]
      exact ⟨s₁, dp, _, rfl, ⟨rfl, rfl⟩, .failed (.inr rfl) hfaulty htended⟩

theorem dirAlloc_spec (hc : Coherent s) (hones : Faulty faults ∨ NoOnes vol s)
    (hdir : Directory vol s dp.sclust chain) :
    ∃ s' dp' r, dirAlloc faults vol.toGeometry s dp = some (s', dp', r) ∧ SameDir dp dp' ∧
      r ≠ .noFile ∧ Enlarged faults vol s dp.sclust chain (AtEntry vol) s' dp' r := by
  obtain ⟨s₁, dp₁, r₁, hsdi, hwalked, hsame, hresult⟩ :=
    @dirSdi_spec faults vol s chain dp 0 hc hdir hdir.entries
  have htended : Tended faults vol s s₁ chain chain := hwalked.tended hdir
  unfold dirAlloc
  rw [hsdi]
  simp only [Option.bind_eq_bind, Option.bind_some]
  rcases hresult with ⟨rfl, hat⟩ | ⟨rfl, hfaulty⟩
  · rw [if_pos rfl]
    obtain ⟨s₂, dp₂, r₂, hloop, hsame₂, hlater⟩ := @allocLoop_spec faults vol s₁ chain dp₁
      dp.sclust 0 (2 ^ 16) hwalked.coherent (htended.ones hones) (hwalked.directory hdir) hat
      (by omega)
    rw [hloop]
    simp only [Option.bind_some]
    have hboth := htended.enlarged (List.prefix_refl _) hlater
    refine ⟨s₂, dp₂, _, rfl, hsame.trans hsame₂, ?_, ?_⟩
    · by_cases hend : r₂ = .noFile
      · rw [if_pos hend]
        decide
      · rw [if_neg hend]
        exact hend
    · by_cases hend : r₂ = .noFile
      · subst hend
        rw [if_pos rfl]
        cases hboth with
        | full _ hkept hbegins hdir₂ => exact .full (.inr rfl) hkept hbegins hdir₂
      · rw [if_neg hend]
        exact hboth
  · rw [if_neg (by decide)]
    refine ⟨s₁, dp₁, _, rfl, hsame, by decide, ?_⟩
    rw [if_neg (by decide)]
    exact .failed (.inr rfl) hfaulty htended

/-! The entry. -/

/-- The sector of an entry is written to. -/
theorem written_tended (faults : Faults) (win : Memory) (hdir : Directory vol s sclust chain)
    (hk : k < tableLength vol.toGeometry chain)
    (hwin : s.winsect = tableSect vol.toGeometry chain k) :
    Tended faults vol s { s with win := win, wflag := true } chain chain ∧
      Directory vol { s with win := win, wflag := true } sclust chain := by
  have hsector := hdir.sector hk
  have hbelow := vol.data_below
  rw [← hwin] at hsector
  have hview : ∀ x, x < ss * s.winsect ∨ ss * s.winsect + ss ≤ x →
      FatFs.view { s with win := win, wflag := true } x = s.view x := by
    intro x hx
    unfold FatFs.view
    dsimp only
    rw [overlay_outside hx, overlay_outside hx]
  have hentry : ∀ c < vol.nFatent, fatEntry vol.toGeometry
      (FatFs.view { s with win := win, wflag := true }) c = fatEntry vol.toGeometry s.view c := by
    intro c hlt
    apply fatEntry_congr hlt
    intro x hx
    have hend := Nat.mul_le_mul_left ss (vol.one_fat.trans hsector.1)
    exact hview x (.inl (hx.2.trans_le hend))
  refine ⟨⟨⟨⟨fun hclean => (by cases hclean), fun _ => ?_⟩, fun c _ hlt _ _ => hentry c hlt,
    ?_, ?_⟩, fun _ hc => .inl hc, fun hones => hones.imp_right fun hones c hc hlt => ?_, ?_⟩,
    hdir.linked.congr fun c hc => hentry c (hdir.linked.2 c hc).2, hdir.start, hdir.root⟩
  · dsimp only
    omega
  · intro c j i hc hlt hmem _ hj hi
    apply hview
    have hne : clust2sect vol.toGeometry c + j ≠ s.winsect :=
      hwin ▸ hdir.apart hk ⟨hc, hlt⟩ hmem hj
    have hapart : ss * (clust2sect vol.toGeometry c + j) + i < ss * s.winsect ∨
        ss * s.winsect + ss * 1 ≤ ss * (clust2sect vol.toGeometry c + j) + i :=
      byte_apart (by omega) hi
    rwa [Nat.mul_one] at hapart
  · intro x hx
    apply hview
    have hreserved := vol.reserved
    left
    unfold ss at hx ⊢
    omega
  · rw [hentry c hlt]
    exact hones c hc hlt
  · intro others _ hclear
    apply Apart.moved hclear
    rintro c _ hlt (hmem | hfree)
    · exact .inl hmem
    · rw [hentry c hlt] at hfree
      exact .inr hfree

/-- The window is at an entry that has nothing but a name. -/
structure Registered (vol : Volume) (s' : FatFs) (chain' : List Nat) (dp' : Dir) (i : Nat) :
    Prop where
  entry : DirAt vol chain' dp' i
  window : s'.winsect = dp'.sect
  blank : ∀ t, 11 ≤ t → t < szDire → s'.win (dp'.dir + t) = 0

theorem dirRegister_spec (hc : Coherent s) (hones : Faulty faults ∨ NoOnes vol s)
    (hdir : Directory vol s dp.sclust chain) :
    ∃ s' dp' r, dirRegister faults vol.toGeometry s dp = some (s', dp', r) ∧
      r ≠ .noFile ∧ Enlarged faults vol s dp.sclust chain
        (fun s' chain' dp' => ∃ i, Registered vol s' chain' dp' i) s' dp' r := by
  obtain ⟨s₁, dp₁, r₁, halloc, -, hr, hresult⟩ := dirAlloc_spec hc hones hdir
  unfold dirRegister
  rw [halloc]
  simp only [Option.bind_eq_bind, Option.bind_some]
  cases hresult with
  | found htended hbegins hdir₁ hP =>
    obtain ⟨i, hat⟩ := hP
    rw [if_neg (not_not.mpr rfl)]
    have hk := (lt_entryCount.mp hat.bound).1
    generalize hmove : moveWindow faults vol.toGeometry s₁ dp₁.sect = moved
    obtain ⟨s₂, r₂⟩ := moved
    dsimp only
    rw [hat.sect] at hmove
    obtain ⟨hwalked, hmoved⟩ := moveWindow_walked htended.elsewhere.coherent hk hmove
    have hboth := htended.trans (hwalked.tended hdir₁)
    obtain ⟨rfl, hwin⟩ | ⟨rfl, hfaulty⟩ := hmoved
    · rw [if_neg (not_not.mpr rfl)]
      obtain ⟨hput, hdir₂⟩ := written_tended faults (write (write s₂.win dp₁.dir
        (List.replicate szDire 0)) dp₁.dir (dp₁.fn.take 11)) (hwalked.directory hdir₁) hk hwin
      refine ⟨_, dp₁, _, rfl, hr, .found (hboth.trans hput) hbegins hdir₂ ⟨i, hat, ?_, ?_⟩⟩
      · exact hwin.trans hat.sect.symm
      · intro t hlow hhigh
        have hname : (dp₁.fn.take 11).length ≤ 11 := List.length_take_le 11 dp₁.fn
        change write (write s₂.win dp₁.dir _) dp₁.dir _ (dp₁.dir + t) = 0
        rw [write_outside (by omega), write_inside (by simpa using hhigh), List.getElem_replicate]
    · rw [if_pos (by decide)]
      exact ⟨s₂, dp₁, _, rfl, by decide, .failed (.inr rfl) hfaulty hboth.lost⟩
  | full he htended hbegins hdir₁ =>
    rw [if_pos (by rintro rfl; simp at he)]
    exact ⟨s₁, dp₁, _, rfl, hr, .full he htended hbegins hdir₁⟩
  | failed he hfaulty htended =>
    rw [if_pos (by rintro ⟨rfl⟩; simp at he)]
    exact ⟨s₁, dp₁, _, rfl, hr, .failed he hfaulty htended⟩

/-! The new file. -/

@[simp] theorem length_halfBytes (value : Nat) : (halfBytes value).length = 2 := rfl

theorem load16_congr {mem mem' : Memory} {a b : Nat} (h₀ : mem a = mem' b)
    (h₁ : mem (a + 1) = mem' (b + 1)) : load16 mem a = load16 mem' b := by
  unfold load16
  rw [h₀, h₁]

/-- `LD_WORD` behind `ST_WORD`. -/
theorem load16_write (mem : Memory) (a value : Nat) :
    load16 (write mem a (halfBytes value)) a = value % 2 ^ 16 := by
  have h₀ : write mem a (halfBytes value) (a + 0) = _ := write_inside (by simp)
  have h₁ : write mem a (halfBytes value) (a + 1) = _ := write_inside (by simp)
  rw [Nat.add_zero] at h₀
  unfold load16
  rw [h₀, h₁]
  simp only [halfBytes, List.getElem_cons_zero, List.getElem_cons_succ, BitVec.toNat_ofNat]
  omega

/-- A file without clusters. -/
def newFile (faRead faWrite : Bool) (clust : Nat) (buf : Memory) : Fil :=
  ⟨faRead, faWrite, false, true, .ok, 0, 0, 0, clust, 0, buf⟩

/-- The entry has no start cluster before it is set to 0. -/
theorem freshEntry_ldClust {win : Memory} {dir : Nat} (g : Geometry) (tm : Nat)
    (hblank : ∀ t, 11 ≤ t → t < szDire → win (dir + t) = 0) :
    ldClust g (freshEntry tm dir win) dir = 0 := by
  have hword : ∀ t, t = 20 ∨ t = 26 → load16 (freshEntry tm dir win) (dir + t) = 0 := by
    intro t ht
    have hzero : load16 win (dir + t) = 0 := by
      unfold load16
      rw [hblank t (by omega) (by unfold szDire; omega), Nat.add_assoc,
        hblank (t + 1) (by omega) (by unfold szDire; omega)]
      rfl
    rw [← hzero]
    unfold freshEntry store32 dirAttr
    apply load16_congr
    · rw [write_outside (by simp; omega), write_outside (by simp; omega),
        write_outside (by simp; omega), write_outside (by simp; omega)]
    · rw [write_outside (by simp; omega), write_outside (by simp; omega),
        write_outside (by simp; omega), write_outside (by simp; omega)]
  unfold ldClust
  dsimp only
  rw [hword 26 (.inr rfl), hword 20 (.inl rfl)]
  split <;> rfl

theorem openedFile_new (g : Geometry) (faRead faWrite : Bool) (clust : Nat) (buf : Memory)
    (tm dir : Nat) (win : Memory) :
    { openedFile g faRead faWrite clust buf (stClust dir 0 (freshEntry tm dir win)) dir with
      written := true } = newFile faRead faWrite clust buf := by
  have hsize : load32 (stClust dir 0 (freshEntry tm dir win)) (dir + 28) = 0 := by
    unfold stClust
    rw [load32_write_apart (by simp), load32_write_apart (by simp)]
    exact load32_store32 (Nat.two_pow_pos 32)
  have hlow : load16 (stClust dir 0 (freshEntry tm dir win)) (dir + 26) = 0 := by
    have hread : load16 (stClust dir 0 (freshEntry tm dir win)) (dir + 26) =
        load16 (write (freshEntry tm dir win) (dir + 26) (halfBytes 0)) (dir + 26) :=
      load16_congr (write_outside (by simp)) (write_outside (by simp))
    exact hread.trans (load16_write _ _ 0)
  have hhigh : load16 (stClust dir 0 (freshEntry tm dir win)) (dir + 20) = 0 :=
    load16_write _ (dir + 20) 0
  have hclust : ldClust g (stClust dir 0 (freshEntry tm dir win)) dir = 0 := by
    unfold ldClust
    dsimp only
    rw [hlow, hhigh]
    split <;> rfl
  unfold openedFile newFile
  rw [hsize, hclust]

/-- What `f_open` comes to. Its entry is one of the directory. -/
inductive OpenedNew (faults : Faults) (vol : Volume) (s : FatFs) (sclust : Nat)
    (chain : List Nat) (fp : Fil) : FatFs → Except DirResult (Fil × Nat × Nat) → Prop where
  | opened {s' : FatFs} {chain' : List Nat} {i : Nat} : Tended faults vol s s' chain chain' →
      chain <+: chain' → Directory vol s' sclust chain' → i < entryCount vol.toGeometry chain' →
      OpenedNew faults vol s sclust chain fp s'
        (.ok (fp, tableSect vol.toGeometry chain' (i / perSect), i % perSect * szDire))
  | refused {s' : FatFs} {chain' : List Nat} {e : FResult} : e = .denied ∨ e = .exist →
      Tended faults vol s s' chain chain' → chain <+: chain' → Directory vol s' sclust chain' →
      OpenedNew faults vol s sclust chain fp s' (.error (.res e))
  | failed {s' : FatFs} {e : FResult} : e = .intErr ∨ e = .diskErr → Faulty faults →
      Tended faults vol s s' chain chain →
      OpenedNew faults vol s sclust chain fp s' (.error (.res e))

theorem fOpenNew_spec (faRead faWrite : Bool) (tm clust : Nat) (buf : Memory) (hc : Coherent s)
    (hones : Faulty faults ∨ NoOnes vol s) (hdir : Directory vol s dp.sclust chain) :
    ∃ s' r, fOpenNew faults vol.toGeometry s dp faRead faWrite tm clust buf = some (s', r) ∧
      OpenedNew faults vol s dp.sclust chain (newFile faRead faWrite clust buf) s' r := by
  obtain ⟨s₁, dp₁, r₁, hfind, hwalked, hsame, hresult⟩ := dirFind_spec faults hc hdir
  have htended : Tended faults vol s s₁ chain chain := hwalked.tended hdir
  have hdir₁ := hwalked.directory hdir
  unfold fOpenNew
  rw [hfind]
  simp only [Option.bind_eq_bind, Option.bind_some]
  rcases hresult with ⟨rfl, -⟩ | ⟨rfl, -⟩ | ⟨rfl, hfaulty⟩
  · -- there is a file of the name
    rw [if_pos rfl]
    by_cases hdenied : s₁.win (dp₁.dir + dirAttr) &&& (amRdo ||| amDir) ≠ 0
    · rw [if_pos hdenied]
      exact ⟨s₁, _, rfl, .refused (.inl rfl) htended (List.prefix_refl _) hdir₁⟩
    · rw [if_neg hdenied]
      exact ⟨s₁, _, rfl, .refused (.inr rfl) htended (List.prefix_refl _) hdir₁⟩
  · rw [if_neg (by decide), if_neg (not_not.mpr rfl)]
    rw [← hsame.sclust] at hdir₁
    obtain ⟨s₂, dp₂, r₂, hregister, hr, hresult⟩ :=
      dirRegister_spec hwalked.coherent (htended.ones hones) hdir₁
    rw [hsame.sclust] at hresult
    rw [hregister]
    simp only [Option.bind_some]
    cases htended.enlarged (List.prefix_refl _) hresult with
    | found hboth hbegins hdir₂ hP =>
      obtain ⟨i, hentry, hwin, hblank⟩ := hP
      have hk := (lt_entryCount.mp hentry.bound).1
      rw [hentry.sect] at hwin
      obtain ⟨hput, hdir₃⟩ := written_tended faults
        (stClust dp₂.dir 0 (freshEntry tm dp₂.dir s₂.win)) hdir₂ hk hwin
      rw [if_neg (not_not.mpr rfl), freshEntry_ldClust vol.toGeometry tm hblank,
        if_neg (not_not.mpr rfl)]
      rw [if_neg (not_not.mpr rfl), openedFile_new]
      rw [hwin, hentry.dir] at hput hdir₃ ⊢
      exact ⟨_, _, rfl, .opened (hboth.trans hput) hbegins hdir₃ hentry.bound⟩
    | full hfull hboth hbegins hdir₂ =>
      obtain rfl := hfull.resolve_left hr
      rw [if_pos (by decide)]
      exact ⟨s₂, _, rfl, .refused (.inl rfl) hboth hbegins hdir₂⟩
    | failed he hfaulty hboth =>
      rw [if_pos (by rintro ⟨rfl⟩; simp at he)]
      exact ⟨s₂, _, rfl, .failed he hfaulty hboth⟩
  · rw [if_neg (by decide), if_pos (by decide)]
    exact ⟨s₁, _, rfl, .failed (.inr rfl) hfaulty htended⟩

end PosixRtos.Fs
