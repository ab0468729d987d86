import PosixRtos.Fs.Directory
import PosixRtos.Fs.Mount

/-! `f_readdir`: a directory is listed entry by entry. -/
namespace PosixRtos.Fs

open PosixRtos.Library.ByteMemory PosixRtos.Library.Runs

def rddem : Byte := 0x05

def amMask : Byte := 0x3f

def amLfn : Byte := 0x0f

def amArc : Byte := 0x20

/-- The entries that `dir_read` stops at: the labels with `label`, files and directories
without it. -/
def ValidEntry (label : Bool) (mem : Memory) (a : Nat) : Prop :=
  mem a ≠ ddem ∧ mem a ≠ 0x2e ∧ mem (a + dirAttr) &&& amMask ≠ amLfn ∧
    decide (mem (a + dirAttr) &&& amMask &&& ~~~amArc = amVol) = label

instance decidableValidEntry (label : Bool) (mem : Memory) (a : Nat) :
    Decidable (ValidEntry label mem a) := inferInstanceAs (Decidable (_ ∧ _ ∧ _ ∧ _))

section

variable (faults : Faults) (g : Geometry)

/-- The loop of `dir_read`. -/
def dirReadLoop (label : Bool) : Nat → FatFs → Dir → DirResult → Option (FatFs × Dir × DirResult)
  | 0, _, _, _ => none
  | fuel + 1, s, dp, res =>
      if dp.sect = 0 then some (s, dp, res)
      else
        let (s, r) := moveWindow faults g s dp.sect
        if r ≠ .ok then some (s, dp, .res r)
        else if s.win dp.dir = 0 then some (s, dp, .noFile)
        else if ValidEntry label s.win dp.dir then some (s, dp, .res .ok)
        else do
          let (s, dp, r) ← dirNext faults g s dp false
          if r = .res .ok then dirReadLoop label fuel s dp r else some (s, dp, r)

/-- `dir_read` -/
def dirRead (s : FatFs) (dp : Dir) (label : Bool) : Option (FatFs × Dir × DirResult) := do
  let (s, dp, r) ← dirReadLoop faults g label (2 ^ 16) s dp .noFile
  if r = .res .ok then some (s, dp, r) else some (s, { dp with sect := 0 }, r)

structure FilInfo where
  fname : List Byte
  fattrib : Byte
  fsize : Nat
  fdate : Nat
  ftime : Nat

/-- The loop of `get_fileinfo`: the spaces are left out and the extension gets its dot. -/
def shortName (name : List Byte) : List Byte :=
  name.zipIdx.flatMap fun (c, i) =>
    if c = 0x20 then []
    else (if i = 8 then [0x2e] else []) ++ [if c = rddem then ddem else c]

/-- What `get_fileinfo` takes from an entry. -/
def infoAt (mem : Memory) (a : Nat) : FilInfo where
  fname := shortName (read mem a 11)
  fattrib := mem (a + dirAttr)
  fsize := load32 mem (a + 28)
  fdate := load16 mem (a + 24)
  ftime := load16 mem (a + 22)

/-- `get_fileinfo` -/
def getFileinfo (s : FatFs) (dp : Dir) (fno : FilInfo) : FilInfo :=
  if dp.sect ≠ 0 then infoAt s.win dp.dir else { fno with fname := [] }

/-- The end of the directory is no error. -/
def endOfDir (dp : Dir) (r : DirResult) : Dir × DirResult :=
  if r = .noFile then ({ dp with sect := 0 }, .res .ok) else (dp, r)

/-- `f_readdir` with a place for the information. -/
def fReaddir (valid : Bool) (s : FatFs) (dp : Dir) (fno : FilInfo) :
    Option (FatFs × Dir × FilInfo × DirResult) :=
  if !valid then some (s, dp, fno, .res .invalidObject)
  else do
    let (s, dp, r) ← dirRead faults g s dp false
    let (dp, r) := endOfDir dp r
    if r = .res .ok then
      let fno := getFileinfo s dp fno
      let (s, dp, r) ← dirNext faults g s dp false
      let (dp, r) := endOfDir dp r
      some (s, dp, fno, r)
    else some (s, dp, fno, r)

/-- An open directory with what was listed since it was opened or rewound, up to the first
call that failed. -/
structure Listing where
  fs : FatFs
  dp : Dir
  log : List FilInfo
  failed : Bool

/-- `f_readdir` without a place for the information rewinds. -/
inductive ListAct where
  | read (fno : FilInfo)
  | rewind

def listStep (h : Listing) : ListAct → Option Listing
  | .read fno => do
      let (fs, dp, fno, r) ← fReaddir faults g true h.fs h.dp fno
      let failed := h.failed || r ≠ .res .ok
      some ⟨fs, dp, if failed then h.log else h.log ++ [fno], failed⟩
  | .rewind => do
      let (fs, dp, r) ← dirSdi faults g h.fs h.dp 0
      some (if r = .res .ok then ⟨fs, dp, [], false⟩ else ⟨fs, dp, h.log, true⟩)

end

/-- The entries from `i` on that are to be listed. -/
def listed (g : Geometry) (chain : List Nat) (mem : Memory) (i : Nat) : List Nat :=
  ((List.range' i (entryCount g chain - i)).takeWhile
    fun j => mem (entryAt g chain j) ≠ 0).filter fun j => ValidEntry false mem (entryAt g chain j)

variable {faults : Faults} {vol : Volume} {s s' : FatFs} {chain : List Nat} {dp dp' : Dir}
variable {mem : Memory} {i : Nat}

theorem listed_end (hend : entryCount vol.toGeometry chain ≤ i) :
    listed vol.toGeometry chain mem i = [] := by
  unfold listed
  rw [Nat.sub_eq_zero_of_le hend]
  rfl

theorem range_entries (hlt : i < entryCount vol.toGeometry chain) :
    List.range' i (entryCount vol.toGeometry chain - i) =
      i :: List.range' (i + 1) (entryCount vol.toGeometry chain - (i + 1)) := by
  rw [show entryCount vol.toGeometry chain - i = entryCount vol.toGeometry chain - (i + 1) + 1 by
    omega, List.range'_succ]

theorem listed_mark (hlt : i < entryCount vol.toGeometry chain)
    (hmark : mem (entryAt vol.toGeometry chain i) = 0) :
    listed vol.toGeometry chain mem i = [] := by
  unfold listed
  rw [range_entries hlt, List.takeWhile_cons_of_neg (by simpa using hmark)]
  rfl

theorem listed_used (hlt : i < entryCount vol.toGeometry chain)
    (hused : mem (entryAt vol.toGeometry chain i) ≠ 0) :
    listed vol.toGeometry chain mem i =
      if ValidEntry false mem (entryAt vol.toGeometry chain i) then
        i :: listed vol.toGeometry chain mem (i + 1)
      else listed vol.toGeometry chain mem (i + 1) := by
  unfold listed
  rw [range_entries hlt, List.takeWhile_cons_of_pos (by simpa using hused), List.filter_cons]
  simp only [decide_eq_true_eq]

theorem dirReadLoop_spec {sclust fuel : Nat} {res : DirResult} (hc : Coherent s)
    (hdir : Directory vol s sclust chain) (hmem : ∀ x, vol.Counts x → s.view x = mem x)
    (hat : DirAt vol chain dp i) (hfuel : entryCount vol.toGeometry chain ≤ i + fuel) :
    ∃ s' dp' r, dirReadLoop faults vol.toGeometry false fuel s dp res = some (s', dp', r) ∧
      Kept vol.toGeometry s s' ∧ SameDir dp dp' ∧
      ((r = .res .ok ∧ ∃ j, DirAt vol chain dp' j ∧ s'.winsect = dp'.sect ∧
          listed vol.toGeometry chain mem i = j :: listed vol.toGeometry chain mem (j + 1)) ∨
        (r = .noFile ∧ listed vol.toGeometry chain mem i = []) ∨
        r = .res .diskErr ∧ Faulty faults) := by
  induction fuel generalizing s dp i res with
  | zero => exact absurd hat.bound (Nat.not_lt.mpr hfuel)
  | succ fuel ih =>
    unfold dirReadLoop
    rw [if_neg (hat.sect_ne_zero hdir)]
    generalize hmove : moveWindow faults vol.toGeometry s dp.sect = moved
    obtain ⟨s₁, r₁⟩ := moved
    dsimp only
    obtain ⟨hkept, ⟨rfl, hwin⟩ | ⟨rfl, hfaulty⟩⟩ := moveWindow_spec hc hmove
    · rw [if_neg (not_not.mpr rfl)]
      have hdir₁ := hkept.directory hdir
      have hmem₁ : ∀ x, vol.Counts x → s₁.view x = mem x := fun x hx =>
        (hkept.view x hx).trans (hmem x hx)
      have hfirst := window_entry hdir₁ hmem₁ hat hwin (show 0 < szDire by decide)
      rw [Nat.add_zero, Nat.add_zero] at hfirst
      have hvalid : ValidEntry false s₁.win dp.dir ↔
          ValidEntry false mem (entryAt vol.toGeometry chain i) := by
        unfold ValidEntry
        rw [hfirst, window_entry hdir₁ hmem₁ hat hwin (show dirAttr < szDire by decide)]
      rw [hfirst]
      by_cases hmark : mem (entryAt vol.toGeometry chain i) = 0
      · rw [if_pos hmark]
        exact ⟨s₁, dp, _, rfl, hkept, ⟨rfl, rfl⟩, .inr (.inl ⟨rfl, listed_mark hat.bound hmark⟩)⟩
      rw [if_neg hmark, listed_used hat.bound hmark]
      by_cases hentry : ValidEntry false mem (entryAt vol.toGeometry chain i)
      · rw [if_pos (hvalid.mpr hentry), if_pos hentry]
        exact ⟨s₁, dp, _, rfl, hkept, ⟨rfl, rfl⟩, .inl ⟨rfl, i, hat, hwin, rfl⟩⟩
      · rw [if_neg fun hv => hentry (hvalid.mp hv), if_neg hentry]
        obtain ⟨s₂, dp₂, r₂, hnext, hkept₂, hsame, hresult⟩ :=
          @dirNext_spec faults vol s₁ chain dp i sclust hkept.coherent hdir₁ hat
        rw [hnext]
        simp only [Option.bind_eq_bind, Option.bind_some]
        rcases hresult with ⟨rfl, hat₂⟩ | ⟨rfl, hlast⟩ | ⟨rfl, hfaulty⟩
        · rw [if_pos rfl]
          obtain ⟨s₃, dp₃, r₃, hloop, hkept₃, hsame₃, hfound⟩ := ih hkept₂.coherent
            (hkept₂.directory hdir₁) (fun x hx => (hkept₂.view x hx).trans (hmem₁ x hx)) hat₂
            (by omega)
          exact ⟨s₃, dp₃, r₃, hloop, (hkept.trans hkept₂.toKept).trans hkept₃,
            hsame.trans hsame₃, hfound⟩
        · rw [if_neg (by decide)]
          exact ⟨s₂, dp₂, _, rfl, hkept.trans hkept₂.toKept, hsame,
            .inr (.inl ⟨rfl, listed_end hlast⟩)⟩
        · rw [if_neg (by decide)]
          exact ⟨s₂, dp₂, _, rfl, hkept.trans hkept₂.toKept, hsame, .inr (.inr ⟨rfl, hfaulty⟩)⟩
    · rw [if_pos (by decide)]
      exact ⟨s₁, dp, _, rfl, hkept, ⟨rfl, rfl⟩, .inr (.inr ⟨rfl, hfaulty⟩)⟩

/-! One call. -/

theorem diskErr_ne_ok : DirResult.res .diskErr ≠ .res .ok := by decide

theorem endOfDir_res (dp : Dir) (r : FResult) : endOfDir dp (.res r) = (dp, .res r) :=
  if_neg fun h => by cases h

/-- The entries that an object has still to list. -/
def Left (vol : Volume) (chain : List Nat) (mem : Memory) (dp : Dir) (rest : List Nat) : Prop :=
  dp.sect = 0 ∧ rest = [] ∨ ∃ i, DirAt vol chain dp i ∧ rest = listed vol.toGeometry chain mem i

/-- What `dir_read` finds; the window is at the entry. -/
def ReadResult (faults : Faults) (vol : Volume) (chain : List Nat) (mem : Memory)
    (rest : List Nat) (s' : FatFs) (dp' : Dir) (r : DirResult) : Prop :=
  (r = .res .ok ∧ ∃ j, DirAt vol chain dp' j ∧ s'.winsect = dp'.sect ∧
    rest = j :: listed vol.toGeometry chain mem (j + 1)) ∨
  (r = .noFile ∧ dp'.sect = 0 ∧ rest = []) ∨ r = .res .diskErr ∧ Faulty faults

theorem dirRead_spec {sclust : Nat} {rest : List Nat} (hc : Coherent s)
    (hdir : Directory vol s sclust chain) (hmem : ∀ x, vol.Counts x → s.view x = mem x)
    (hleft : Left vol chain mem dp rest) :
    ∃ s' dp' r, dirRead faults vol.toGeometry s dp false = some (s', dp', r) ∧
      Kept vol.toGeometry s s' ∧ SameDir dp dp' ∧
      ReadResult faults vol chain mem rest s' dp' r := by
  unfold dirRead
  rcases hleft with ⟨hsect, rfl⟩ | ⟨i, hat, rfl⟩
  · have hloop : dirReadLoop faults vol.toGeometry false (2 ^ 16) s dp .noFile =
        some (s, dp, .noFile) := by
      unfold dirReadLoop
      exact if_pos hsect
    rw [hloop]
    exact ⟨s, _, _, rfl, .refl hc, ⟨rfl, rfl⟩, .inr (.inl ⟨rfl, rfl, rfl⟩)⟩
  · obtain ⟨s₁, dp₁, r, hloop, hkept, hsame, hresult⟩ := @dirReadLoop_spec faults vol s chain dp
      mem i sclust (2 ^ 16) .noFile hc hdir hmem hat
      ((Nat.min_le_right _ _).trans (Nat.le_add_left _ _))
    rw [hloop]
    simp only [Option.bind_eq_bind, Option.bind_some]
    rcases hresult with ⟨rfl, hfound⟩ | ⟨rfl, hnone⟩ | ⟨rfl, hfaulty⟩
    · rw [if_pos rfl]
      exact ⟨s₁, dp₁, _, rfl, hkept, hsame, .inl ⟨rfl, hfound⟩⟩
    · rw [if_neg (by decide)]
      exact ⟨s₁, _, _, rfl, hkept, ⟨hsame.fn, hsame.sclust⟩, .inr (.inl ⟨rfl, rfl, hnone⟩)⟩
    · rw [if_neg (by decide)]
      exact ⟨s₁, _, _, rfl, hkept, ⟨hsame.fn, hsame.sclust⟩, .inr (.inr ⟨rfl, hfaulty⟩)⟩

theorem infoAt_congr {mem' : Memory} {a a' : Nat}
    (h : ∀ t < szDire, mem (a + t) = mem' (a' + t)) : infoAt mem a = infoAt mem' a' := by
  unfold infoAt load32 load16
  simp only [Nat.add_assoc, name_congr h, h dirAttr (by decide), h 28 (by decide),
    h (28 + 1) (by decide), h (28 + 2) (by decide), h (28 + 3) (by decide), h 24 (by decide),
    h (24 + 1) (by decide), h 22 (by decide), h (22 + 1) (by decide)]

/-- What a call of `f_readdir` does with the entries that are left. -/
def CallResult (faults : Faults) (vol : Volume) (chain : List Nat) (mem : Memory)
    (rest : List Nat) (dp' : Dir) (fno' : FilInfo) (r : DirResult) : Prop :=
  (r = .res .ok ∧ ∃ rest', Left vol chain mem dp' rest' ∧
    (rest = [] ∧ rest' = [] ∧ fno'.fname = [] ∨
      ∃ j, rest = j :: rest' ∧ fno' = infoAt mem (entryAt vol.toGeometry chain j))) ∨
  r ≠ .res .ok ∧ Faulty faults

theorem fReaddir_spec {sclust : Nat} {rest : List Nat} (fno : FilInfo) (hc : Coherent s)
    (hdir : Directory vol s sclust chain) (hmem : ∀ x, vol.Counts x → s.view x = mem x)
    (hleft : Left vol chain mem dp rest) :
    ∃ s' dp' fno' r, fReaddir faults vol.toGeometry true s dp fno = some (s', dp', fno', r) ∧
      Kept vol.toGeometry s s' ∧ SameDir dp dp' ∧
      CallResult faults vol chain mem rest dp' fno' r := by
  obtain ⟨s₁, dp₁, r₁, hread, hkept, hsame, hresult⟩ :=
    @dirRead_spec faults vol s chain dp mem sclust rest hc hdir hmem hleft
  unfold fReaddir
  rw [if_neg (by decide), hread]
  simp only [Option.bind_eq_bind, Option.bind_some]
  rcases hresult with ⟨rfl, j, hat, hwin, rfl⟩ | ⟨rfl, hsect, rfl⟩ | ⟨rfl, hfaulty⟩
  · have hdir₁ := hkept.directory hdir
    have hmem₁ : ∀ x, vol.Counts x → s₁.view x = mem x := fun x hx =>
      (hkept.view x hx).trans (hmem x hx)
    have hinfo : getFileinfo s₁ dp₁ fno = infoAt mem (entryAt vol.toGeometry chain j) := by
      unfold getFileinfo
      rw [if_pos (hat.sect_ne_zero hdir₁)]
      exact infoAt_congr fun t ht => window_entry hdir₁ hmem₁ hat hwin ht
    obtain ⟨s₂, dp₂, r₂, hnext, hkept₂, hsame₂, hafter⟩ :=
      @dirNext_spec faults vol s₁ chain dp₁ j sclust hkept.coherent hdir₁ hat
    rw [endOfDir_res]
    dsimp only
    rw [if_pos rfl, hnext, hinfo]
    simp only [Option.bind_some]
    rcases hafter with ⟨rfl, hat₂⟩ | ⟨rfl, hlast⟩ | ⟨rfl, hfaulty⟩
    · rw [endOfDir_res]
      exact ⟨s₂, dp₂, _, _, rfl, hkept.trans hkept₂.toKept, hsame.trans hsame₂,
        .inl ⟨rfl, _, .inr ⟨j + 1, hat₂, rfl⟩, .inr ⟨j, rfl, rfl⟩⟩⟩
    · have hmoved := hsame.trans hsame₂
      exact ⟨s₂, _, _, _, rfl, hkept.trans hkept₂.toKept, ⟨hmoved.fn, hmoved.sclust⟩,
        .inl ⟨rfl, _, .inl ⟨rfl, listed_end hlast⟩, .inr ⟨j, rfl, rfl⟩⟩⟩
    · rw [endOfDir_res]
      exact ⟨s₂, dp₂, _, _, rfl, hkept.trans hkept₂.toKept, hsame.trans hsame₂,
        .inr ⟨diskErr_ne_ok, hfaulty⟩⟩
  · -- nothing is left, and the object stays where it is
    have hend : endOfDir dp₁ .noFile = ({ dp₁ with sect := 0 }, .res .ok) := if_pos rfl
    rw [hend]
    dsimp only
    have hnext : dirNext faults vol.toGeometry s₁ { dp₁ with sect := 0 } false =
        some (s₁, { dp₁ with sect := 0 }, .noFile) := if_pos (.inr rfl)
    rw [if_pos rfl, hnext]
    exact ⟨s₁, _, _, _, rfl, hkept, ⟨hsame.fn, hsame.sclust⟩,
      .inl ⟨rfl, [], .inl ⟨rfl, rfl⟩, .inl ⟨rfl, rfl, rfl⟩⟩⟩
  · rw [endOfDir_res]
    exact ⟨s₁, dp₁, fno, _, rfl, hkept, hsame, .inr ⟨diskErr_ne_ok, hfaulty⟩⟩

/-! Calls behind one that failed. The place of the object is no entry any more. -/

theorem dirReadLoop_returns (faults : Faults) (vol : Volume) (label : Bool) {fuel : Nat}
    (hc : Coherent s) (hindex : dp.index < 2 ^ 16) (hfuel : 2 ^ 16 ≤ dp.index + fuel)
    (res : DirResult) :
    ∃ s' dp' r, dirReadLoop faults vol.toGeometry label fuel s dp res = some (s', dp', r) ∧
      Kept vol.toGeometry s s' ∧ SameDir dp dp' ∧ dp'.index < 2 ^ 16 := by
  induction fuel generalizing s dp res with
  | zero => omega
  | succ fuel ih =>
    unfold dirReadLoop
    by_cases hsect : dp.sect = 0
    · rw [if_pos hsect]
      exact ⟨s, dp, res, rfl, .refl hc, ⟨rfl, rfl⟩, hindex⟩
    rw [if_neg hsect]
    generalize hmove : moveWindow faults vol.toGeometry s dp.sect = moved
    obtain ⟨s₁, r₁⟩ := moved
    obtain ⟨hkept, -⟩ := moveWindow_spec hc hmove
    dsimp only
    by_cases hfailed : r₁ ≠ .ok
    · rw [if_pos hfailed]
      exact ⟨s₁, dp, _, rfl, hkept, ⟨rfl, rfl⟩, hindex⟩
    rw [if_neg hfailed]
    by_cases hmark : s₁.win dp.dir = 0
    · rw [if_pos hmark]
      exact ⟨s₁, dp, _, rfl, hkept, ⟨rfl, rfl⟩, hindex⟩
    rw [if_neg hmark]
    by_cases hvalid : ValidEntry label s₁.win dp.dir
    · rw [if_pos hvalid]
      exact ⟨s₁, dp, _, rfl, hkept, ⟨rfl, rfl⟩, hindex⟩
    rw [if_neg hvalid]
    obtain ⟨s₂, dp₂, r₂, hnext, hkept₂, hsame, hresult⟩ :=
      dirNext_returns faults vol hkept.coherent dp
    rw [hnext]
    simp only [Option.bind_eq_bind, Option.bind_some]
    rcases hresult with ⟨rfl, hne, hon⟩ | ⟨hend, hstay⟩
    · rw [Nat.mod_eq_of_lt (by omega)] at hon
      rw [if_pos rfl]
      obtain ⟨s₃, dp₃, r₃, hloop, hkept₃, hsame₃, hbound⟩ :=
        @ih s₂ dp₂ hkept₂.coherent (by omega) (by omega) (.res .ok)
      exact ⟨s₃, dp₃, r₃, hloop, (hkept.trans hkept₂).trans hkept₃, hsame.trans hsame₃, hbound⟩
    · rw [if_neg hend]
      exact ⟨s₂, dp₂, r₂, rfl, hkept.trans hkept₂, hsame, by rw [hstay]; exact hindex⟩

theorem SameDir.endOfDir (h : SameDir dp dp') (hindex : dp'.index < 2 ^ 16) (r : DirResult) :
    SameDir dp (endOfDir dp' r).1 ∧ (endOfDir dp' r).1.index < 2 ^ 16 := by
  unfold Fs.endOfDir
  split
  · exact ⟨⟨h.fn, h.sclust⟩, hindex⟩
  · exact ⟨h, hindex⟩

/-- Every call returns and changes nothing. -/
theorem fReaddir_returns (faults : Faults) (vol : Volume) (hc : Coherent s)
    (hindex : dp.index < 2 ^ 16) (fno : FilInfo) :
    ∃ s' dp' fno' r, fReaddir faults vol.toGeometry true s dp fno = some (s', dp', fno', r) ∧
      Kept vol.toGeometry s s' ∧ SameDir dp dp' ∧ dp'.index < 2 ^ 16 := by
  obtain ⟨s₁, dp₁, r₁, hread, hkept, hsame, hbound⟩ : ∃ s₁ dp₁ r₁,
      dirRead faults vol.toGeometry s dp false = some (s₁, dp₁, r₁) ∧
        Kept vol.toGeometry s s₁ ∧ SameDir dp dp₁ ∧ dp₁.index < 2 ^ 16 := by
    obtain ⟨s₁, dp₁, r₁, hloop, hkept, hsame, hbound⟩ := dirReadLoop_returns faults vol
      false hc hindex (Nat.le_add_left (2 ^ 16) _) .noFile
    unfold dirRead
    rw [hloop]
    simp only [Option.bind_eq_bind, Option.bind_some]
    by_cases hok : r₁ = .res .ok
    · rw [if_pos hok]
      exact ⟨s₁, dp₁, r₁, rfl, hkept, hsame, hbound⟩
    · rw [if_neg hok]
      exact ⟨s₁, _, r₁, rfl, hkept, ⟨hsame.fn, hsame.sclust⟩, hbound⟩
  obtain ⟨hsame, hbound⟩ := hsame.endOfDir hbound r₁
  unfold fReaddir
  rw [if_neg (by decide), hread]
  simp only [Option.bind_eq_bind, Option.bind_some]
  generalize endOfDir dp₁ r₁ = ended at hsame hbound ⊢
  obtain ⟨dp₂, r₂⟩ := ended
  dsimp only at hsame hbound ⊢
  by_cases hok : r₂ = .res .ok
  · rw [if_pos hok]
    obtain ⟨s₃, dp₃, r₃, hnext, hkept₃, hsame₃, hresult⟩ :=
      dirNext_returns faults vol hkept.coherent dp₂
    have hbound₃ : dp₃.index < 2 ^ 16 := by
      rcases hresult with ⟨-, -, hon⟩ | ⟨-, hstay⟩
      · rw [hon]
        exact Nat.mod_lt _ (by decide)
      · rw [hstay]
        exact hbound
    obtain ⟨hsame₄, hbound₄⟩ := (hsame.trans hsame₃).endOfDir hbound₃ r₃
    rw [hnext]
    exact ⟨s₃, _, _, _, rfl, hkept.trans hkept₃, hsame₄, hbound₄⟩
  · rw [if_neg hok]
    exact ⟨s₁, dp₂, _, _, rfl, hkept, hsame, hbound⟩

theorem dirSdi_index {idx : Nat} {r : DirResult}
    (hcall : dirSdi faults vol.toGeometry s dp idx = some (s', dp', r)) : dp'.index < 2 ^ 16 := by
  have hplace : ∀ (s : FatFs) (dp : Dir) (clst sect : Nat) (idx : Nat),
      (dirPlace s dp clst sect idx).2.1.index = dp.index := by
    intro s dp clst sect idx
    unfold dirPlace
    dsimp only
    split <;> rfl
  have hword : idx % 2 ^ 16 < 2 ^ 16 := Nat.mod_lt _ (by decide)
  unfold dirSdi at hcall
  dsimp only at hcall
  generalize idx % 2 ^ 16 = index at hcall hword
  generalize (if dp.sclust = 0 ∧ vol.fsType = .fat32 then vol.dirbase else dp.sclust) = clst
    at hcall
  split at hcall
  · cases hcall
    exact hword
  split at hcall
  · split at hcall
    · cases hcall
      exact hword
    · have hindex := congrArg (fun p => p.2.1.index) (Option.some.inj hcall)
      dsimp only at hindex
      rw [← hindex, hplace]
      exact hword
  · obtain ⟨⟨s₁, e⟩, -, hcall⟩ := Option.bind_eq_some_iff.mp hcall
    cases e with
    | error e =>
      cases hcall
      exact hword
    | ok p =>
      have hindex := congrArg (fun p => p.2.1.index) (Option.some.inj hcall)
      dsimp only at hindex
      rw [← hindex, hplace]
      exact hword

/-! Runs of calls. -/

/-- What was listed is the beginning of the directory; names are empty only behind its end. -/
def Listed (all rest : List Nat) (info : Nat → FilInfo) (log : List FilInfo) : Prop :=
  ∃ done blanks, all = done ++ rest ∧ log = done.map info ++ blanks ∧
    (∀ fno ∈ blanks, fno.fname = []) ∧ (blanks ≠ [] → rest = [])

theorem Listed.next {all rest : List Nat} {info : Nat → FilInfo} {log : List FilInfo} {j : Nat}
    (h : Listed all (j :: rest) info log) : Listed all rest info (log ++ [info j]) := by
  obtain ⟨done, blanks, rfl, rfl, -, hblanks⟩ := h
  have hnone : blanks = [] := by
    by_contra hne
    cases hblanks hne
  subst hnone
  refine ⟨done ++ [j], [], ?_, ?_, fun fno hfno => absurd hfno List.not_mem_nil,
    fun hne => absurd rfl hne⟩
  · rw [List.append_assoc]
    rfl
  · rw [List.map_append, List.append_nil, List.append_nil]
    rfl

theorem Listed.blank {all : List Nat} {info : Nat → FilInfo} {log : List FilInfo} {fno : FilInfo}
    (h : Listed all [] info log) (hfno : fno.fname = []) : Listed all [] info (log ++ [fno]) := by
  obtain ⟨done, blanks, rfl, rfl, hempty, -⟩ := h
  refine ⟨done, blanks ++ [fno], rfl, List.append_assoc _ _ _, ?_, fun _ => rfl⟩
  intro other hother
  rcases List.mem_append.mp hother with hmem | hlast
  · exact hempty other hmem
  · rw [List.mem_singleton.mp hlast]
    exact hfno

theorem listed_nothing (all : List Nat) (info : Nat → FilInfo) : Listed all all info [] :=
  ⟨[], [], rfl, rfl, fun _ hfno => absurd hfno List.not_mem_nil, fun hne => absurd rfl hne⟩

structure ListInv (faults : Faults) (vol : Volume) (chain : List Nat) (sclust : Nat) (mem : Memory)
    (h : Listing) : Prop where
  coherent : Coherent h.fs
  directory : Directory vol h.fs sclust chain
  view : ∀ x, vol.Counts x → h.fs.view x = mem x
  start : h.dp.sclust = sclust
  index : h.dp.index < 2 ^ 16
  listed : ∃ rest, (h.failed = false → Left vol chain mem h.dp rest) ∧
    Listed (Fs.listed vol.toGeometry chain mem 0) rest
      (fun j => infoAt mem (entryAt vol.toGeometry chain j)) h.log
  faulty : h.failed = true → Faulty faults

variable {sclust : Nat} {h h' : Listing} {act : ListAct}

theorem ListInv.kept {fs : FatFs} {log : List FilInfo} {failed : Bool}
    (inv : ListInv faults vol chain sclust mem h)
    (hkept : Kept vol.toGeometry h.fs fs) (hsame : SameDir h.dp dp') (hindex : dp'.index < 2 ^ 16)
    (hlisted : ∃ rest, (failed = false → Left vol chain mem dp' rest) ∧
      Listed (Fs.listed vol.toGeometry chain mem 0) rest
        (fun j => infoAt mem (entryAt vol.toGeometry chain j)) log)
    (hfaulty : failed = true → Faulty faults) :
    ListInv faults vol chain sclust mem ⟨fs, dp', log, failed⟩ where
  coherent := hkept.coherent
  directory := hkept.directory inv.directory
  view x hx := (hkept.view x hx).trans (inv.view x hx)
  start := hsame.sclust.trans inv.start
  index := hindex
  listed := hlisted
  faulty := hfaulty

/-- A call has failed. -/
theorem ListInv.broken {fs : FatFs} (inv : ListInv faults vol chain sclust mem h)
    (hkept : Kept vol.toGeometry h.fs fs) (hsame : SameDir h.dp dp') (hindex : dp'.index < 2 ^ 16)
    (hfaulty : Faulty faults) : ListInv faults vol chain sclust mem ⟨fs, dp', h.log, true⟩ := by
  obtain ⟨rest, -, hlisted⟩ := inv.listed
  refine inv.kept hkept hsame hindex ⟨rest, ?_, hlisted⟩ fun _ => hfaulty
  intro hgood
  cases hgood

theorem ListInv.read (inv : ListInv faults vol chain sclust mem h) {fno : FilInfo}
    (hstep : listStep faults vol.toGeometry h (.read fno) = some h') :
    ListInv faults vol chain sclust mem h' := by
  obtain ⟨⟨fs, dp', fno', r⟩, hcall, hsome⟩ := Option.bind_eq_some_iff.mp hstep
  obtain rfl := Option.some.inj hsome
  obtain ⟨rest, hleft, hlisted⟩ := inv.listed
  obtain ⟨s₁, dp₁, fno₁, r₁, hcall₁, hkept, hsame, hindex⟩ :=
    fReaddir_returns faults vol inv.coherent inv.index fno
  obtain ⟨rfl, rfl, rfl, rfl⟩ : s₁ = fs ∧ dp₁ = dp' ∧ fno₁ = fno' ∧ r₁ = r := by
    rw [hcall] at hcall₁
    cases hcall₁
    exact ⟨rfl, rfl, rfl, rfl⟩
  cases hfailed : h.failed with
  | true => exact inv.broken hkept hsame hindex (inv.faulty hfailed)
  | false =>
    obtain ⟨_, _, _, _, hcall₂, -, -, hresult⟩ := @fReaddir_spec faults vol h.fs
      chain h.dp mem sclust rest fno inv.coherent inv.directory inv.view (hleft hfailed)
    rw [hcall] at hcall₂
    cases hcall₂
    rcases hresult with ⟨rfl, rest', hleft', hmore⟩ | ⟨hbad, hfaulty⟩
    · refine inv.kept hkept hsame hindex ⟨rest', fun _ => hleft', ?_⟩ fun hbad => by cases hbad
      rcases hmore with ⟨rfl, rfl, hempty⟩ | ⟨j, rfl, rfl⟩
      · exact hlisted.blank hempty
      · exact hlisted.next
    · have hdecided : (false || decide (r₁ ≠ .res .ok)) = true := by simpa using hbad
      simp only [hdecided, if_true]
      exact inv.broken hkept hsame hindex hfaulty

theorem ListInv.rewind (inv : ListInv faults vol chain sclust mem h)
    (hstep : listStep faults vol.toGeometry h .rewind = some h') :
    ListInv faults vol chain sclust mem h' := by
  obtain ⟨⟨fs, dp', r⟩, hcall, hsome⟩ := Option.bind_eq_some_iff.mp hstep
  obtain rfl := Option.some.inj hsome
  have hindex : dp'.index < 2 ^ 16 := dirSdi_index hcall
  have hdir := inv.directory
  rw [← inv.start] at hdir
  obtain ⟨s₁, dp₁, r₁, hcall₁, hkept, hsame, hresult⟩ :=
    @dirSdi_spec faults vol h.fs chain h.dp 0 inv.coherent hdir hdir.entries
  rw [hcall₁] at hcall
  cases hcall
  rcases hresult with ⟨rfl, hat⟩ | ⟨rfl, hfaulty⟩
  · rw [if_pos rfl]
    exact inv.kept hkept.toKept hsame hindex ⟨_, fun _ => .inr ⟨0, hat, rfl⟩, listed_nothing _ _⟩
      fun hbad => by cases hbad
  · rw [if_neg diskErr_ne_ok]
    exact inv.broken hkept.toKept hsame hindex hfaulty

theorem ListInv.step (inv : ListInv faults vol chain sclust mem h)
    (hstep : listStep faults vol.toGeometry h act = some h') :
    ListInv faults vol chain sclust mem h' := by
  cases act with
  | read fno => exact inv.read hstep
  | rewind => exact inv.rewind hstep

/-- Until a call fails, calls of `f_readdir` list a directory from its first entry on, each file
and each directory in it once, in their order and as they are on the medium, and give empty
names behind the last one; rewinding starts again, also behind a call that failed. Nothing is
changed, and a call fails only where a request failed. -/
theorem readdir_lists (hc : Coherent s) (hdir : Directory vol s dp.sclust chain)
    (hopen : dirSdi faults vol.toGeometry s dp 0 = some (s', dp', .res .ok))
    (hrun : Reaches (listStep faults vol.toGeometry) anyStep ⟨s', dp', [], false⟩ h) :
    (∃ rest, Listed (listed vol.toGeometry chain s.view 0) rest
      (fun j => infoAt s.view (entryAt vol.toGeometry chain j)) h.log) ∧
    (∀ x, vol.Counts x → h.fs.view x = s.view x) ∧ (h.failed = true → Faulty faults) ∧
    ∀ fno, ∃ fs dp₁ fno' r, fReaddir faults vol.toGeometry true h.fs h.dp fno =
      some (fs, dp₁, fno', r) ∧ (r = .res .ok ∨ Faulty faults) := by
  have hstart : ListInv faults vol chain dp.sclust s.view ⟨s', dp', [], false⟩ := by
    obtain ⟨s₁, dp₁, r₁, hcall, hkept, hsame, hresult⟩ :=
      @dirSdi_spec faults vol s chain dp 0 hc hdir hdir.entries
    rw [hopen] at hcall
    cases hcall
    rcases hresult with ⟨-, hat⟩ | ⟨hfailed, -⟩
    · exact ⟨hkept.coherent, hkept.directory hdir, hkept.view, hsame.sclust, dirSdi_index hopen,
        ⟨_, fun _ => .inr ⟨0, hat, rfl⟩, listed_nothing _ _⟩, fun hbad => by cases hbad⟩
    · exact absurd hfailed.symm diskErr_ne_ok
  have inv : ListInv faults vol chain dp.sclust s.view h :=
    hrun.invariant (ListInv faults vol chain dp.sclust s.view) hstart
      fun _ _ _ inv _ hstep => inv.step hstep
  obtain ⟨rest, hleft, hlisted⟩ := inv.listed
  refine ⟨⟨rest, hlisted⟩, inv.view, inv.faulty, fun fno => ?_⟩
  obtain ⟨s₁, dp₁, fno₁, r₁, hcall, -⟩ :=
    fReaddir_returns faults vol inv.coherent inv.index fno
  refine ⟨s₁, dp₁, fno₁, r₁, hcall, ?_⟩
  cases hfailed : h.failed with
  | true => exact .inr (inv.faulty hfailed)
  | false =>
    obtain ⟨_, _, _, _, hcall₂, -, -, hresult⟩ := @fReaddir_spec faults vol h.fs chain h.dp
      s.view dp.sclust rest fno inv.coherent inv.directory inv.view (hleft hfailed)
    rw [hcall] at hcall₂
    cases hcall₂
    rcases hresult with ⟨hok, -⟩ | ⟨-, hfaulty⟩
    · exact .inl hok
    · exact .inr hfaulty

/-- The root is opened and two entries are asked for. -/
def twoEntries : Option (FatFs × Dir × DirResult × Listing) := do
  let (s, dp, r) ← dirSdi (fun _ => none) smallVolume.toGeometry labelFs rootDir 0
  let h ← runInputs (listStep (fun _ => none) smallVolume.toGeometry) anyStep
    [.read ⟨[], 0, 0, 0, 0⟩, .read ⟨[], 0, 0, 0, 0⟩] ⟨s, dp, [], false⟩
  some (s, dp, r, h)

/-- `A.TXT`, and no name behind it. -/
theorem readdir_lists_file : ∃ s' dp' h, twoEntries = some (s', dp', .res .ok, h) ∧
    h.log.map FilInfo.fname = [[0x41, 0x2e, 0x54, 0x58, 0x54], []] ∧
    ∃ rest, Listed (listed smallVolume.toGeometry [] labelFs.view 0) rest
      (fun j => infoAt labelFs.view (entryAt smallVolume.toGeometry [] j)) h.log := by
  have hfacts : twoEntries.map (fun r => (r.2.2.1, r.2.2.2.log.map FilInfo.fname)) =
      some (.res .ok, [[0x41, 0x2e, 0x54, 0x58, 0x54], []]) := by decide +kernel
  obtain ⟨⟨s', dp', r, h⟩, hcalls, hnames⟩ := Option.map_eq_some_iff.mp hfacts
  obtain ⟨rfl, hnames⟩ := Prod.mk.inj hnames
  have hsteps := hcalls
  unfold twoEntries at hsteps
  obtain ⟨⟨s₁, dp₁, r₁⟩, hopen, hrest⟩ := Option.bind_eq_some_iff.mp hsteps
  obtain ⟨h₁, hrun, hsome⟩ := Option.bind_eq_some_iff.mp hrest
  cases hsome
  exact ⟨s', dp', h, hcalls, hnames,
    (readdir_lists labelFs_coherent labelFs_root hopen (.of_runInputs hrun)).1⟩

end PosixRtos.Fs
