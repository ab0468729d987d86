import PosixRtos.Fs.Syncing
import PosixRtos.Fs.Truncating

/-! Any number of open files on one volume, with calls in any order. Each of them is followed
from the outside: by what its calls were given and what they returned. -/
namespace PosixRtos.Fs

open PosixRtos.Library.ByteMemory PosixRtos.Library.Runs
open PosixRtos.Heap (word sub32)

/-- A file with the bytes that have been written to it, its size and its position. Its entry is
at `dirPtr` in sector `dirSect`, in the directory that starts at `home`. -/
structure Tracked where
  fp : Fil
  known : Nat → Option Byte
  size : Nat
  pos : Nat
  home : Nat
  dirSect : Nat
  dirPtr : Nat

/-- The open files, and the directories that files are created in. -/
structure Session where
  fs : FatFs
  files : List Tracked
  dirs : List Nat

/-- The calls. `find` is a step of the way of a path, `create` is `f_open` with `FA_CREATE_NEW`
in the directory that it has led to. -/
inductive FileAct where
  | find (sclust : Nat) (fn : List Byte)
  | create (faRead faWrite : Bool) (sclust : Nat) (fn : List Byte) (tm clust : Nat) (buf : Memory)
  | read (i btr : Nat)
  | write (i : Nat) (buff : List Byte)
  | seek (i ofs : Nat)
  | truncate (i : Nat)
  | sync (i tm : Nat)

/-- A directory object as `follow_path` uses it. -/
def dirObject (sclust : Nat) (fn : List Byte) : Dir := ⟨0, sclust, 0, 0, 0, fn⟩

/-- A directory in which a request has failed is not used any more. -/
def Session.afterOpen (st : Session) (fs : FatFs) (sclust : Nat) :
    Except DirResult (Fil × Nat × Nat) → Session
  | .ok (fp, dirSect, dirPtr) =>
      ⟨fs, st.files ++ [⟨fp, fun _ => none, fp.fsize, fp.fptr, sclust, dirSect, dirPtr⟩], st.dirs⟩
  | .error r =>
      if r = .res .denied ∨ r = .res .exist then { st with fs := fs }
      else ⟨fs, st.files, st.dirs.filter (· ≠ sclust)⟩

/-- What the caller knows of the file after a call. -/
def Tracked.afterRead (t : Tracked) (fp : Fil) (res : FResult) (br : Nat) : Tracked :=
  if res = .ok then { t with fp := fp, pos := t.pos + br } else { t with fp := fp }

def Tracked.afterWrite (t : Tracked) (fp : Fil) (res : FResult) (bytes : List Byte) : Tracked :=
  if res = .ok then
    { t with
      fp := fp
      known := overwrite t.known t.pos bytes
      size := max t.size (t.pos + bytes.length)
      pos := t.pos + bytes.length }
  else { t with fp := fp }

def Tracked.afterSeek (t : Tracked) (fp : Fil) (res : FResult) : Tracked :=
  if res = .ok then { t with fp := fp, pos := fp.fptr, size := max t.size fp.fptr }
  else { t with fp := fp }

def Tracked.afterTruncate (t : Tracked) (fp : Fil) (res : FResult) : Tracked :=
  if res = .ok then { t with fp := fp, known := cutAt t.known t.pos, size := t.pos }
  else { t with fp := fp }

/-- A call for the file of number `i`. -/
def Session.after (st : Session) (fs : FatFs) (i : Nat) (t : Tracked) : Session :=
  { st with fs := fs, files := st.files.set i t }

/-- A run ends where `f_sync` is called for a file that has been aborted, which it does not look
at, and where its write of the FSINFO sector fails. -/
def fileStep (faults : Faults) (g : Geometry) (st : Session) : FileAct → Option Session
  | .find sclust fn =>
      if sclust ∈ st.dirs then do
        let (fs, _, _) ← dirFind faults g st.fs (dirObject sclust fn)
        some { st with fs := fs }
      else none
  | .create faRead faWrite sclust fn tm clust buf =>
      if sclust ∈ st.dirs then do
        let (fs, r) ← fOpenNew faults g st.fs (dirObject sclust fn) faRead faWrite tm clust buf
        some (st.afterOpen fs sclust r)
      else none
  | .read i btr => do
      let t ← st.files[i]?
      let (fs, fp, res, bytes) ← fRead faults g true st.fs t.fp btr
      some (st.after fs i (t.afterRead fp res bytes.length))
  | .write i buff =>
      if buff.length < 2 ^ 32 then do
        let t ← st.files[i]?
        let (fs, fp, res, bw) ← fWrite faults g true st.fs t.fp buff
        some (st.after fs i (t.afterWrite fp res (buff.take bw)))
      else none
  | .seek i ofs =>
      if ofs < 2 ^ 32 then do
        let t ← st.files[i]?
        let (fs, fp, res) ← fLseek faults g true st.fs t.fp ofs
        some (st.after fs i (t.afterSeek fp res))
      else none
  | .truncate i => do
      let t ← st.files[i]?
      let (fs, fp, res) ← fTruncate faults g true st.fs t.fp
      some (st.after fs i (t.afterTruncate fp res))
  | .sync i tm => do
      let t ← st.files[i]?
      if t.fp.err = .ok ∧ t.home ∈ st.dirs then
        let (fs, fp, _) := fSync faults g true tm t.dirSect t.dirPtr st.fs t.fp
        if g.fsType = .fat32 → fs.Shows then some (st.after fs i { t with fp := fp }) else none
      else none

variable {faults : Faults} {vol : Volume} {st st' : Session} {s s' : FatFs} {t t' : Tracked}
variable {chain chain' : List Nat} {i : Nat}

/-- A file that has not been aborted holds what is known of it in the clusters `chain`. -/
structure Faithful (vol : Volume) (s : FatFs) (t : Tracked) (chain : List Nat) : Prop where
  inv : FileInv vol s t.fp chain t.known
  pos : t.pos = t.fp.fptr
  size : t.size = t.fp.fsize
  le : t.fp.fptr ≤ t.fp.fsize
  ends : Ends t.fp t.known

def Tracks (vol : Volume) (s : FatFs) (t : Tracked) (chain : List Nat) : Prop :=
  if t.fp.err = .ok then Faithful vol s t chain else chain = []

/-- The entry of the file is one of the directory with the clusters `chain`. -/
def AtHome (vol : Volume) (t : Tracked) (chain : List Nat) : Prop :=
  ∃ j < entryCount vol.toGeometry chain,
    t.dirSect = tableSect vol.toGeometry chain (j / perSect) ∧ t.dirPtr = j % perSect * szDire

/-- What has clusters of its own: the file of number `i`, the directory that starts at
`sclust`. -/
inductive Owner where
  | file (i : Nat)
  | dir (sclust : Nat)
deriving DecidableEq

def Session.Live (st : Session) : Owner → Prop
  | .file i => i < st.files.length
  | .dir sclust => sclust ∈ st.dirs

/-- The files and the directories have no cluster in common, and none of a file is in the
window. -/
structure Owners (vol : Volume) (st : Session) (chainOf : Owner → List Nat) : Prop where
  files : ∀ (i : Nat) (t : Tracked), st.files[i]? = some t →
    Tracks vol st.fs t (chainOf (.file i))
  dirs : ∀ d ∈ st.dirs, Directory vol st.fs d (chainOf (.dir d))
  apart : ∀ a b, a ≠ b → st.Live a → st.Live b → List.Disjoint (chainOf a) (chainOf b)
  clear : ∀ i < st.files.length, Clear vol st.fs (chainOf (.file i))
  free : Clear vol st.fs []
  homes : ∀ (i : Nat) (t : Tracked), st.files[i]? = some t → t.home ∈ st.dirs →
    AtHome vol t (chainOf (.dir t.home))

structure SessionInv (faults : Faults) (vol : Volume) (st : Session) : Prop where
  coherent : Coherent st.fs
  ones : Faulty faults ∨ NoOnes vol st.fs
  info : InfoInFront vol
  owners : ∃ chainOf, Owners vol st chainOf

variable {chainOf : Owner → List Nat}

/-! What the others see of an access. -/

/-- Another file does not see it. -/
theorem Tracks.elsewhere (h : Tracks vol s t chain) (helse : Elsewhere vol s s' chain')
    (hapart : List.Disjoint chain' chain) : Tracks vol s' t chain := by
  unfold Tracks at h ⊢
  split at h
  next herr =>
    rw [if_pos herr]
    exact ⟨h.inv.frame helse hapart, h.pos, h.size, h.le, h.ends⟩
  next herr =>
    rw [if_neg herr]
    exact h

/-- The clusters of a file that is followed are not free. -/
theorem Tracks.used {c : Nat} (h : Tracks vol s t chain) (hc : c ∈ chain) :
    (2 ≤ c ∧ c < vol.nFatent) ∧ fatEntry vol.toGeometry s.view c ≠ 0 := by
  unfold Tracks at h
  split at h
  next =>
    have hused := h.inv.linked.entry_cases hc
    exact ⟨h.inv.linked.2 c hc, by omega⟩
  next =>
    rw [h] at hc
    cases hc

theorem Owners.used {a : Owner} {c : Nat} (h : Owners vol st chainOf) (hlive : st.Live a)
    (hc : c ∈ chainOf a) :
    (2 ≤ c ∧ c < vol.nFatent) ∧ fatEntry vol.toGeometry st.fs.view c ≠ 0 := by
  cases a with
  | file i => exact (h.files i _ (List.getElem?_eq_getElem hlive)).used hc
  | dir d =>
    have hlinked := (h.dirs d hlive).linked
    have hused := hlinked.entry_cases hc
    exact ⟨hlinked.2 c hc, by omega⟩

/-- The clusters that an owner has after its access are no other one's. -/
theorem Owners.grown {a b : Owner} (h : Owners vol st chainOf) (ha : st.Live a) (hb : st.Live b)
    (hne : a ≠ b) (hturn : Tended faults vol st.fs s' (chainOf a) chain') :
    List.Disjoint chain' (chainOf b) := by
  intro c hc hcb
  rcases hturn.grown c hc with hin | ⟨-, hfree⟩
  · exact h.apart a b hne ha hb hin hcb
  · exact (h.used hb hcb).2 hfree

/-- The window keeps off what the others have. -/
theorem Owners.off {a b : Owner} (h : Owners vol st chainOf) (ha : st.Live a) (hb : st.Live b)
    (hne : a ≠ b) (hturn : Tended faults vol st.fs s' (chainOf a) chain')
    (hclear : Clear vol st.fs (chainOf b)) : Clear vol s' (chainOf b) :=
  hturn.window _ (fun _ hc => ⟨(h.used hb hc).1, fun hin => h.apart a b hne ha hb hin hc,
    (h.used hb hc).2⟩) hclear

/-- The other files and directories are as they were. -/
theorem Owners.otherFile {a : Owner} {j : Nat} {u : Tracked} (h : Owners vol st chainOf)
    (ha : st.Live a) (hturn : Tended faults vol st.fs s' (chainOf a) chain')
    (hne : Owner.file j ≠ a) (hu : st.files[j]? = some u) :
    Tracks vol s' u (chainOf (.file j)) := by
  obtain ⟨hj, -⟩ := List.getElem?_eq_some_iff.mp hu
  exact (h.files j u hu).elsewhere hturn.elsewhere (h.apart _ _ hne.symm ha hj)

theorem Owners.otherDir {a : Owner} {d : Nat} (h : Owners vol st chainOf) (ha : st.Live a)
    (hturn : Tended faults vol st.fs s' (chainOf a) chain') (hne : Owner.dir d ≠ a)
    (hd : d ∈ st.dirs) : Directory vol s' d (chainOf (.dir d)) :=
  (h.dirs d hd).elsewhere hturn.elsewhere (h.apart _ _ hne.symm ha hd)

/-- A table that grows keeps the places of its entries. -/
theorem AtHome.extended {sclust : Nat} (h : AtHome vol t chain) (hbegins : chain <+: chain')
    (hdir : Directory vol s sclust chain) (hdir' : Directory vol s' sclust chain') :
    AtHome vol t chain' := by
  obtain ⟨j, hj, hsect, hptr⟩ := h
  obtain ⟨more, rfl⟩ := hbegins
  by_cases hnil : chain = []
  · subst hnil
    -- the table of the root stays where it is
    have hmore : more = [] := by
      by_contra hne
      obtain ⟨c, cs, rfl⟩ := List.exists_cons_of_ne_nil hne
      have hrange := hdir'.linked.2 c List.mem_cons_self
      have hstart := hdir.start.2.2.symm.trans hdir'.start.2.2
      rw [List.nil_append, List.headD_nil, List.headD_cons] at hstart
      omega
    rw [hmore]
    exact ⟨j, hj, hsect, hptr⟩
  · have hne : chain ++ more ≠ [] := fun heq => hnil (List.append_eq_nil_iff.mp heq).1
    obtain ⟨hk, hword⟩ := lt_entryCount.mp hj
    have hlength : tableLength vol.toGeometry chain = chain.length * vol.csize := if_neg hnil
    have hlength' : tableLength vol.toGeometry (chain ++ more) =
      (chain ++ more).length * vol.csize := if_neg hne
    rw [hlength] at hk
    refine ⟨j, lt_entryCount.mpr ⟨?_, hword⟩, ?_, hptr⟩
    · rw [hlength', List.length_append, Nat.add_mul]
      omega
    · rw [hsect]
      unfold tableSect
      rw [if_neg hnil, if_neg hne, fileSect_append _ _ hk]

/-- The entry of the file is where it was. -/
structure SamePlace (t t' : Tracked) : Prop where
  home : t'.home = t.home
  dirSect : t'.dirSect = t.dirSect
  dirPtr : t'.dirPtr = t.dirPtr

theorem SamePlace.ite {p : Prop} [Decidable p] {a b : Tracked} (ha : SamePlace t a)
    (hb : SamePlace t b) : SamePlace t (if p then a else b) := by
  split
  · exact ha
  · exact hb

/-! The turn of an owner. -/

/-- What is apart stays apart. -/
theorem Owners.apart_turn {a : Owner} (h : Owners vol st chainOf) (ha : st.Live a)
    (hturn : Tended faults vol st.fs s' (chainOf a) chain') (b c : Owner) (hne : b ≠ c)
    (hb : st.Live b) (hc : st.Live c) :
    List.Disjoint (Function.update chainOf a chain' b) (Function.update chainOf a chain' c) := by
  by_cases hba : b = a
  · subst hba
    rw [Function.update_self, Function.update_of_ne hne.symm]
    exact h.grown ha hc hne hturn
  · rw [Function.update_of_ne hba]
    by_cases hca : c = a
    · subst hca
      rw [Function.update_self]
      exact (h.grown ha hb hne.symm hturn).symm
    · rw [Function.update_of_ne hca]
      exact h.apart b c hne hb hc

/-- A file has been worked with. -/
theorem Owners.turnFile (h : Owners vol st chainOf) (ht : st.files[i]? = some t)
    (hturn : Tended faults vol st.fs s' (chainOf (.file i)) chain')
    (hclear : Clear vol s' chain') (hnew : Tracks vol s' t' chain')
    (hplace : SamePlace t t') :
    Owners vol (st.after s' i t') (Function.update chainOf (.file i) chain') := by
  obtain ⟨hi, -⟩ := List.getElem?_eq_some_iff.mp ht
  have hlive : st.Live (.file i) := hi
  have hlength : (st.files.set i t').length = st.files.length := List.length_set ..
  have hstill : ∀ b, (st.after s' i t').Live b → st.Live b := by
    intro b hb
    cases b with
    | file j =>
      change j < (st.files.set i t').length at hb
      rwa [hlength] at hb
    | dir d => exact hb
  refine ⟨?_, ?_, fun b c hne hb hc => h.apart_turn hlive hturn b c hne (hstill b hb)
    (hstill c hc), ?_, hturn.window [] (by simp) h.free, ?_⟩
  · intro j u hu
    change (st.files.set i t')[j]? = some u at hu
    by_cases hji : j = i
    · subst hji
      rw [List.getElem?_set_self hi] at hu
      cases hu
      rw [Function.update_self]
      exact hnew
    · rw [List.getElem?_set_ne (Ne.symm hji)] at hu
      have hne : Owner.file j ≠ .file i := fun heq => hji (Owner.file.inj heq)
      rw [Function.update_of_ne hne]
      exact h.otherFile hlive hturn hne hu
  · intro d hd
    have hne : Owner.dir d ≠ .file i := Owner.noConfusion
    rw [Function.update_of_ne hne]
    exact h.otherDir hlive hturn hne hd
  · intro j hj
    change j < (st.files.set i t').length at hj
    rw [hlength] at hj
    by_cases hji : j = i
    · subst hji
      rw [Function.update_self]
      exact hclear
    · have hne : Owner.file j ≠ .file i := fun heq => hji (Owner.file.inj heq)
      rw [Function.update_of_ne hne]
      exact h.off hlive hj hne.symm hturn (h.clear j hj)
  · intro j u hu hhome
    change (st.files.set i t')[j]? = some u at hu
    have hne : Owner.dir u.home ≠ .file i := Owner.noConfusion
    rw [Function.update_of_ne hne]
    by_cases hji : j = i
    · subst hji
      rw [List.getElem?_set_self hi] at hu
      cases hu
      obtain ⟨hsame, hsect, hptr⟩ := hplace
      rw [hsame] at hhome ⊢
      obtain ⟨k, hk, hplaced⟩ := h.homes j t ht hhome
      exact ⟨k, hk, hsect.trans hplaced.1, hptr.trans hplaced.2⟩
    · rw [List.getElem?_set_ne (Ne.symm hji)] at hu
      exact h.homes j u hu hhome

/-- A directory has been worked with. -/
theorem Owners.turnDir {d : Nat} (h : Owners vol st chainOf) (hd : d ∈ st.dirs)
    (hturn : Tended faults vol st.fs s' (chainOf (.dir d)) chain')
    (hbegins : chainOf (.dir d) <+: chain') (hdir : Directory vol s' d chain') :
    Owners vol { st with fs := s' } (Function.update chainOf (.dir d) chain') := by
  have hlive : st.Live (.dir d) := hd
  refine ⟨?_, ?_, h.apart_turn hlive hturn, ?_, hturn.window [] (by simp) h.free, ?_⟩
  · intro j u hu
    have hne : Owner.file j ≠ .dir d := Owner.noConfusion
    rw [Function.update_of_ne hne]
    exact h.otherFile hlive hturn hne hu
  · intro e he
    by_cases hed : e = d
    · subst hed
      rw [Function.update_self]
      exact hdir
    · have hne : Owner.dir e ≠ .dir d := fun heq => hed (Owner.dir.inj heq)
      rw [Function.update_of_ne hne]
      exact h.otherDir hlive hturn hne he
  · intro j hj
    have hne : Owner.file j ≠ .dir d := Owner.noConfusion
    rw [Function.update_of_ne hne]
    exact h.off hlive hj hne.symm hturn (h.clear j hj)
  · intro j u hu hhome
    by_cases hsame : u.home = d
    · have hplaced := h.homes j u hu hhome
      rw [hsame] at hplaced ⊢
      rw [Function.update_self]
      exact hplaced.extended hbegins (h.dirs d hd) hdir
    · have hne : Owner.dir u.home ≠ .dir d := fun heq => hsame (Owner.dir.inj heq)
      rw [Function.update_of_ne hne]
      exact h.homes j u hu hhome

/-- A directory in which a request has failed. -/
theorem Owners.dropDir {d : Nat} (h : Owners vol st chainOf) (hd : d ∈ st.dirs)
    (hturn : Tended faults vol st.fs s' (chainOf (.dir d)) (chainOf (.dir d))) :
    Owners vol ⟨s', st.files, st.dirs.filter (· ≠ d)⟩ chainOf := by
  have hlive : st.Live (.dir d) := hd
  have hstill : ∀ e, e ∈ st.dirs.filter (· ≠ d) → e ∈ st.dirs ∧ e ≠ d := by
    intro e he
    rw [List.mem_filter] at he
    exact ⟨he.1, by simpa using he.2⟩
  have hlives : ∀ b, Session.Live ⟨s', st.files, st.dirs.filter (· ≠ d)⟩ b → st.Live b := by
    intro b hb
    cases b with
    | file j => exact hb
    | dir e => exact (hstill e hb).1
  refine ⟨?_, ?_, fun b c hne hb hc => h.apart b c hne (hlives b hb) (hlives c hc), ?_,
    hturn.window [] (by simp) h.free, fun j u hu hhome => h.homes j u hu (hstill _ hhome).1⟩
  · intro j u hu
    exact h.otherFile hlive hturn Owner.noConfusion hu
  · intro e he
    obtain ⟨hold, hed⟩ := hstill e he
    have hne : Owner.dir e ≠ .dir d := fun heq => hed (Owner.dir.inj heq)
    exact h.otherDir hlive hturn hne hold
  · intro j hj
    exact h.off hlive hj Owner.noConfusion hturn (h.clear j hj)

/-- A new file without clusters. -/
theorem Owners.append (h : Owners vol st chainOf) (hnew : Tracks vol st.fs t [])
    (hhome : t.home ∈ st.dirs → AtHome vol t (chainOf (.dir t.home))) :
    Owners vol { st with files := st.files ++ [t] }
      (Function.update chainOf (.file st.files.length) []) := by
  have hcases : ∀ j u, (st.files ++ [t])[j]? = some u →
      st.files[j]? = some u ∧ j ≠ st.files.length ∨ j = st.files.length ∧ u = t := by
    intro j u hu
    by_cases hj : j < st.files.length
    · rw [List.getElem?_append_left hj] at hu
      exact .inl ⟨hu, by omega⟩
    · obtain ⟨hlt, -⟩ := List.getElem?_eq_some_iff.mp hu
      rw [List.length_append, List.length_singleton] at hlt
      obtain rfl : j = st.files.length := by omega
      rw [List.getElem?_concat_length] at hu
      exact .inr ⟨rfl, (Option.some.inj hu).symm⟩
  have hlives : ∀ b, Session.Live { st with files := st.files ++ [t] } b →
      b = .file st.files.length ∨ st.Live b ∧ b ≠ .file st.files.length := by
    intro b hb
    cases b with
    | file j =>
      change j < (st.files ++ [t]).length at hb
      rw [List.length_append, List.length_singleton] at hb
      by_cases hj : j = st.files.length
      · exact .inl (by rw [hj])
      · exact .inr ⟨show j < st.files.length by omega, fun heq => hj (Owner.file.inj heq)⟩
    | dir e => exact .inr ⟨hb, Owner.noConfusion⟩
  refine ⟨?_, ?_, ?_, ?_, h.free, ?_⟩
  · intro j u hu
    rcases hcases j u hu with ⟨hold, hne⟩ | ⟨rfl, rfl⟩
    · rw [Function.update_of_ne fun heq => hne (Owner.file.inj heq)]
      exact h.files j u hold
    · rw [Function.update_self]
      exact hnew
  · intro e he
    rw [Function.update_of_ne Owner.noConfusion]
    exact h.dirs e he
  · intro b c hne hb hc
    rcases hlives b hb with rfl | ⟨hb, hbne⟩
    · rw [Function.update_self]
      exact List.disjoint_nil_left _
    · rw [Function.update_of_ne hbne]
      rcases hlives c hc with rfl | ⟨hc, hcne⟩
      · rw [Function.update_self]
        exact List.disjoint_nil_right _
      · rw [Function.update_of_ne hcne]
        exact h.apart b c hne hb hc
  · intro j hj
    rcases hlives (.file j) hj with heq | ⟨hlive, hne⟩
    · rw [heq, Function.update_self]
      exact h.free
    · rw [Function.update_of_ne hne]
      exact h.clear j hlive
  · intro j u hu hmem
    rw [Function.update_of_ne Owner.noConfusion]
    rcases hcases j u hu with ⟨hold, -⟩ | ⟨-, rfl⟩
    · exact h.homes j u hold hmem
    · exact hhome hmem

/-! The calls. -/

/-- What a call does to its file: the file is followed on, or it has been aborted. -/
def Outcome (faults : Faults) (vol : Volume) (s s' : FatFs) (t' : Tracked) (chain : List Nat) :
    Prop :=
  (∃ chain', Progress vol s s' chain chain' ∧ Tracks vol s' t' chain') ∨
    t'.fp.err ≠ .ok ∧ Faulty faults ∧ Frame vol s s' chain

/-- The window stays off the clusters of others, where it was off those of the file. -/
theorem Frame.tended (h : Frame vol s s' chain) (hclear : Clear vol s chain)
    (hgrown : ∀ c ∈ chain', c ∈ chain ∨
      (2 ≤ c ∧ c < vol.nFatent) ∧ fatEntry vol.toGeometry s.view c = 0)
    (hones : Faulty faults ∨ NoOnes vol s → Faulty faults ∨ NoOnes vol s') :
    Tended faults vol s s' chain chain' := by
  refine ⟨h.toElsewhere, hgrown, hones, fun others _ hothers => ?_⟩
  unfold Clear
  rcases h.stays with hsame | hfront
  · rw [hsame]
    rintro c j hc hlt (hmem | hfree) hj
    · exact hothers c j hc hlt (.inl hmem) hj
    · rcases h.free hc hlt hfree with hin | hfree
      · exact hclear c j hc hlt (.inl hin) hj
      · exact hothers c j hc hlt (.inr hfree) hj
  · exact .front hfront s' others

/-- What is seen up to the boot sector of the volume. -/
def SameBoot (vol : Volume) (s s' : FatFs) : Prop :=
  ∀ x < ss * (vol.volbase + 1), s'.view x = s.view x

theorem SessionInv.call (h : SessionInv faults vol st) (ht : st.files[i]? = some t)
    (hplace : SamePlace t t')
    (hcall : ∀ chain, Mounted faults vol st.fs chain → Tracks vol st.fs t chain →
      Outcome faults vol st.fs s' t' chain) :
    SessionInv faults vol (st.after s' i t') ∧ SameBoot vol st.fs s' := by
  obtain ⟨chainOf, howners⟩ := h.owners
  obtain ⟨hi, -⟩ := List.getElem?_eq_some_iff.mp ht
  have hclear := howners.clear i hi
  have hm : Mounted faults vol st.fs (chainOf (.file i)) := ⟨h.coherent, hclear, h.ones⟩
  obtain ⟨chain', hturn, hclear', hnew⟩ : ∃ chain', Tended faults vol st.fs s'
      (chainOf (.file i)) chain' ∧ Clear vol s' chain' ∧ Tracks vol s' t' chain' := by
    rcases hcall _ hm (howners.files i t ht) with
      ⟨chain', hprogress, hnew⟩ | ⟨herr, hfaulty, hframe⟩
    · exact ⟨chain', hprogress.frame.tended hclear hprogress.grown
        (fun hones => hones.imp_right hprogress.ones), hprogress.clear hclear, hnew⟩
    · refine ⟨[], hframe.tended hclear (by simp) fun _ => .inl hfaulty,
        hframe.clear hclear (by simp), ?_⟩
      unfold Tracks
      rw [if_neg herr]
  exact ⟨⟨hturn.elsewhere.coherent, hturn.ones h.ones, h.info, _,
    howners.turnFile ht hturn hclear' hnew hplace⟩, hturn.elsewhere.boot⟩

/-- A call that changes nothing. -/
theorem Outcome.unchanged (hm : Mounted faults vol s chain) (h : Tracks vol s t chain) :
    Outcome faults vol s s t chain :=
  .inl ⟨chain, .refl hm.coherent chain, h⟩

/-- A file that is followed on. -/
theorem Outcome.faithful (hprogress : Progress vol s s' chain chain') (herr : t'.fp.err = .ok)
    (h : Faithful vol s' t' chain') : Outcome faults vol s s' t' chain := by
  refine .inl ⟨chain', hprogress, ?_⟩
  unfold Tracks
  rw [if_pos herr]
  exact h

theorem Outcome.aborted {r : FResult} (hres : r ≠ .ok) (herr : t'.fp.err = r)
    (hfaulty : Faulty faults) (hframe : Frame vol s s' chain) :
    Outcome faults vol s s' t' chain :=
  .inr ⟨herr ▸ hres, hfaulty, hframe⟩

theorem Tracks.read {btr : Nat} {fp : Fil} {r : FResult} {bytes : List Byte}
    (hm : Mounted faults vol s chain) (h : Tracks vol s t chain)
    (hcall : fRead faults vol.toGeometry true s t.fp btr = some (s', fp, r, bytes)) :
    Outcome faults vol s s' (t.afterRead fp r bytes.length) chain := by
  by_cases herr : t.fp.err = .ok
  · have hfile := h
    unfold Tracks at hfile
    rw [if_pos herr] at hfile
    by_cases hmode : t.fp.faRead = true
    · obtain ⟨s₁, fp₁, r₁, bytes₁, hread, hprogress, hr⟩ :=
        fRead_spec faults btr hfile.inv hm.coherent hm.clear herr hmode hfile.le
      cases hcall.symm.trans hread
      unfold Tracked.afterRead
      rcases hr with ⟨rfl, hlength, -, hsame, hfptr, hfsize, hinv⟩ | ⟨rfl, habort, hfaulty⟩
      · rw [if_pos rfl]
        refine .faithful hprogress (hsame.err.trans herr) ⟨hinv, ?_, ?_, ?_, ?_⟩
        · dsimp only
          rw [hfptr, hfile.pos]
        · dsimp only
          rw [hfsize, hfile.size]
        · have hle := hfile.le
          dsimp only
          omega
        · intro o ho
          exact hfile.ends o (by rw [← hfsize]; exact ho)
      · rw [if_neg (by simp)]
        exact .aborted (by simp) habort hfaulty hprogress.frame
    · unfold fRead at hcall
      rw [if_neg (by simp), if_neg (by simp [herr]), if_pos (by simpa using hmode)] at hcall
      cases hcall
      exact .unchanged hm h
  · unfold fRead at hcall
    rw [if_neg (by simp), if_pos herr] at hcall
    cases hcall
    unfold Tracked.afterRead
    rw [if_neg herr]
    exact .unchanged hm h

theorem Tracks.write {buff : List Byte} {fp : Fil} {r : FResult} {bw : Nat}
    (hm : Mounted faults vol s chain) (h : Tracks vol s t chain) (hbuff : buff.length < 2 ^ 32)
    (hcall : fWrite faults vol.toGeometry true s t.fp buff = some (s', fp, r, bw)) :
    Outcome faults vol s s' (t.afterWrite fp r (buff.take bw)) chain := by
  by_cases herr : t.fp.err = .ok
  · have hfile := h
    unfold Tracks at hfile
    rw [if_pos herr] at hfile
    by_cases hmode : t.fp.faWrite = true
    · obtain ⟨s₁, fp₁, r₁, n, hwrite, hr⟩ :=
        fWrite_spec faults buff hfile.inv hm herr hmode hfile.le hbuff
      cases hcall.symm.trans hwrite
      unfold Tracked.afterWrite
      rcases hr with ⟨rfl, hn, -, hsame, hfptr, hfsize, chain', hprogress, hinv⟩ |
        ⟨hres, habort, hfaulty, hframe⟩
      · rw [if_pos rfl]
        have hlength : (buff.take bw).length = bw := List.length_take_of_le hn
        rw [hfile.pos, hfile.size]
        refine .faithful hprogress (hsame.err.trans herr) ⟨hinv, ?_, ?_, ?_, ?_⟩
        · dsimp only
          rw [hlength, hfptr]
        · dsimp only
          rw [hlength, hfsize]
        · dsimp only
          omega
        · intro o ho
          dsimp only at ho ⊢
          rw [overwrite_outside (by omega)]
          exact hfile.ends o (by omega)
      · rw [if_neg hres]
        exact .aborted hres habort hfaulty hframe
    · unfold fWrite at hcall
      rw [if_neg (by simp), if_neg (by simp [herr]), if_pos (by simpa using hmode)] at hcall
      cases hcall
      exact .unchanged hm h
  · unfold fWrite at hcall
    rw [if_neg (by simp), if_pos herr] at hcall
    cases hcall
    unfold Tracked.afterWrite
    rw [if_neg herr]
    exact .unchanged hm h

theorem Tracks.seek {ofs : Nat} {fp : Fil} {r : FResult} (hm : Mounted faults vol s chain)
    (h : Tracks vol s t chain) (hofs : ofs < 2 ^ 32)
    (hcall : fLseek faults vol.toGeometry true s t.fp ofs = some (s', fp, r)) :
    Outcome faults vol s s' (t.afterSeek fp r) chain := by
  by_cases herr : t.fp.err = .ok
  · unfold Tracks at h
    rw [if_pos herr] at h
    obtain ⟨s₁, fp₁, r₁, hseek, hr⟩ := fLseek_spec faults ofs h.inv h.ends hm herr hofs
    cases hcall.symm.trans hseek
    unfold Tracked.afterSeek
    rcases hr with ⟨rfl, hsame, hfsize, -, chain', hprogress, hinv⟩ |
      ⟨hres, habort, hfaulty, hframe⟩
    · rw [if_pos rfl]
      refine .faithful hprogress (hsame.err.trans herr) ⟨hinv, rfl, ?_, ?_, ?_⟩
      · dsimp only
        rw [hfsize, h.size]
      · dsimp only
        omega
      · intro o ho
        dsimp only at ho ⊢
        exact h.ends o (by omega)
    · rw [if_neg hres]
      exact .aborted hres habort hfaulty hframe
  · unfold fLseek at hcall
    rw [if_neg (by simp), if_pos herr] at hcall
    cases hcall
    unfold Tracked.afterSeek
    rw [if_neg herr]
    exact .unchanged hm h

theorem Tracks.truncate {fp : Fil} {r : FResult} (hm : Mounted faults vol s chain)
    (h : Tracks vol s t chain)
    (hcall : fTruncate faults vol.toGeometry true s t.fp = some (s', fp, r)) :
    Outcome faults vol s s' (t.afterTruncate fp r) chain := by
  by_cases herr : t.fp.err = .ok
  · have hfile := h
    unfold Tracks at hfile
    rw [if_pos herr] at hfile
    by_cases hmode : t.fp.faWrite = true
    · obtain ⟨s₁, fp₁, r₁, hcut, hr⟩ :=
        fTruncate_spec faults hfile.inv hm herr hmode hfile.le
      cases hcall.symm.trans hcut
      unfold Tracked.afterTruncate
      rcases hr with ⟨rfl, hsame, hfptr, hfsize, chain', hprogress, hinv⟩ |
        ⟨hres, habort, hfaulty, hframe⟩
      · rw [if_pos rfl, hfile.pos]
        refine .faithful hprogress (hsame.err.trans herr) ⟨hinv, hfptr.symm, hfsize.symm, ?_, ?_⟩
        · dsimp only
          omega
        · intro o ho
          dsimp only at ho ⊢
          exact if_neg (by omega)
      · rw [if_neg hres]
        exact .aborted hres habort hfaulty hframe
    · unfold fTruncate at hcall
      rw [if_neg (by simp), if_neg (by simp [herr]), if_pos (by simpa using hmode)] at hcall
      cases hcall
      exact .unchanged hm h
  · unfold fTruncate at hcall
    rw [if_neg (by simp), if_pos herr] at hcall
    cases hcall
    unfold Tracked.afterTruncate
    rw [if_neg herr]
    exact .unchanged hm h

/-- A way of a path through a directory. -/
theorem SessionInv.find {sclust : Nat} {fn : List Byte} {dp : Dir} {r : DirResult}
    (h : SessionInv faults vol st) (hd : sclust ∈ st.dirs)
    (hcall : dirFind faults vol.toGeometry st.fs (dirObject sclust fn) = some (s', dp, r)) :
    SessionInv faults vol { st with fs := s' } ∧ SameBoot vol st.fs s' := by
  obtain ⟨chainOf, howners⟩ := h.owners
  have hdir := howners.dirs sclust hd
  obtain ⟨s₁, dp₁, r₁, hfind, hwalked, -⟩ :=
    @dirFind_spec vol st.fs (chainOf (.dir sclust)) (dirObject sclust fn) faults h.coherent hdir
  cases hcall.symm.trans hfind
  have hturn : Tended faults vol st.fs s' _ _ := hwalked.tended hdir
  exact ⟨⟨hturn.elsewhere.coherent, hturn.ones h.ones, h.info, _, howners.turnDir hd hturn
    (List.prefix_refl _) (hwalked.directory hdir)⟩, hturn.elsewhere.boot⟩

/-- A file that has just been created. -/
theorem newFile_tracks {faRead faWrite : Bool} {clust home dirSect dirPtr : Nat} {buf : Memory} :
    Tracks vol s ⟨newFile faRead faWrite clust buf, fun _ => none, 0, 0, home, dirSect, dirPtr⟩
      [] := by
  unfold Tracks
  rw [if_pos (show (newFile faRead faWrite clust buf).err = .ok from rfl)]
  refine ⟨⟨⟨⟨trivial, by simp⟩, List.nodup_nil, rfl, Nat.zero_le _, Nat.two_pow_pos 32, ?_, ?_, ?_⟩,
    ?_, ?_⟩, rfl, rfl, le_rfl, fun _ _ => rfl⟩
  · intro hdirty
    cases hdirty
  · intro o b _ hknown
    cases hknown
  · intro o b _ hknown
    cases hknown
  · intro hpos
    cases hpos
  · intro hpartial
    exact absurd rfl hpartial

theorem SessionInv.create {faRead faWrite : Bool} {sclust tm clust : Nat} {fn : List Byte}
    {buf : Memory} {r : Except DirResult (Fil × Nat × Nat)} (h : SessionInv faults vol st)
    (hd : sclust ∈ st.dirs) (hcall : fOpenNew faults vol.toGeometry st.fs (dirObject sclust fn)
      faRead faWrite tm clust buf = some (s', r)) :
    SessionInv faults vol (st.afterOpen s' sclust r) ∧
      SameBoot vol st.fs (st.afterOpen s' sclust r).fs := by
  obtain ⟨chainOf, howners⟩ := h.owners
  obtain ⟨s₁, r₁, hopen, hresult⟩ := @fOpenNew_spec faults vol st.fs (chainOf (.dir sclust))
    (dirObject sclust fn) faRead faWrite tm clust buf h.coherent h.ones (howners.dirs sclust hd)
  cases hcall.symm.trans hopen
  cases hresult with
  | @opened chain' j hturn hbegins hdir hj =>
    have hsame := howners.turnDir hd hturn hbegins hdir
    refine ⟨⟨hturn.elsewhere.coherent, hturn.ones h.ones, h.info, _,
      hsame.append newFile_tracks fun _ => ?_⟩, hturn.elsewhere.boot⟩
    rw [Function.update_self]
    exact ⟨j, hj, rfl, rfl⟩
  | refused he hturn hbegins hdir =>
    unfold Session.afterOpen
    dsimp only
    rw [if_pos (by simpa using he)]
    exact ⟨⟨hturn.elsewhere.coherent, hturn.ones h.ones, h.info, _,
      howners.turnDir hd hturn hbegins hdir⟩, hturn.elsewhere.boot⟩
  | failed he hfaulty hturn =>
    unfold Session.afterOpen
    dsimp only
    rw [if_neg (by rcases he with rfl | rfl <;> simp)]
    exact ⟨⟨hturn.elsewhere.coherent, hturn.ones h.ones, h.info, _, howners.dropDir hd hturn⟩,
      hturn.elsewhere.boot⟩

/-- What `f_sync` comes to for a file whose directory is still in use. -/
theorem SessionInv.syncTurns {tm : Nat} {fp : Fil} {r : FResult} (h : SessionInv faults vol st)
    (ht : st.files[i]? = some t) (herr : t.fp.err = .ok) (hhome : t.home ∈ st.dirs)
    (hcall : fSync faults vol.toGeometry true tm t.dirSect t.dirPtr st.fs t.fp = (s', fp, r))
    (hshows : vol.fsType = .fat32 → s'.Shows) :
    (r = .ok ∨ r ≠ .ok ∧ Faulty faults) ∧
      SessionInv faults vol (st.after s' i { t with fp := fp }) ∧ SameBoot vol st.fs s' := by
  obtain ⟨chainOf, howners⟩ := h.owners
  obtain ⟨hi, -⟩ := List.getElem?_eq_some_iff.mp ht
  have hclear := howners.clear i hi
  have hne : Owner.file i ≠ .dir t.home := Owner.noConfusion
  have hfile := howners.files i t ht
  unfold Tracks at hfile
  rw [if_pos herr] at hfile
  obtain ⟨j, hj, hsect, -⟩ := howners.homes i t ht hhome
  rw [hsect] at hcall
  obtain ⟨hr, s₁, hflushed, hturn, hdir⟩ := fSync_turns hfile.inv h.coherent hclear
    (howners.dirs _ hhome) (howners.apart _ _ hne hi hhome) (lt_entryCount.mp hj).1 h.info hcall
    hshows
  obtain ⟨hsame, hfptr, hfsize⟩ := hflushed.same
  have hfirst : Tended faults vol st.fs s₁ (chainOf (.file i)) (chainOf (.file i)) :=
    hflushed.progress.frame.tended hclear (fun _ hc => .inl hc)
      fun hones => hones.imp_right hflushed.progress.ones
  have hnew : Tracks vol s₁ { t with fp := fp } (chainOf (.file i)) := by
    unfold Tracks
    rw [if_pos (hsame.trans herr)]
    refine ⟨hflushed.file, hfile.pos.trans hfptr.symm, hfile.size.trans hfsize.symm, ?_, ?_⟩
    · dsimp only
      rw [hfptr, hfsize]
      exact hfile.le
    · intro o ho
      dsimp only at ho
      rw [hfsize] at ho
      exact hfile.ends o ho
  have hbetween := howners.turnFile ht hfirst (hflushed.progress.clear hclear) hnew ⟨rfl, rfl, rfl⟩
  rw [Function.update_eq_self] at hbetween
  have hafter := hbetween.turnDir hhome hturn (List.prefix_refl _) hdir
  exact ⟨hr, ⟨hturn.elsewhere.coherent, hturn.ones (hfirst.ones h.ones), h.info, _, hafter⟩,
    fun x hx => (hturn.elsewhere.boot x hx).trans (hfirst.elsewhere.boot x hx)⟩

theorem SessionInv.step {act : FileAct} (h : SessionInv faults vol st)
    (hstep : fileStep faults vol.toGeometry st act = some st') :
    SessionInv faults vol st' ∧ SameBoot vol st.fs st'.fs := by
  cases act with
  | find sclust fn =>
    unfold fileStep at hstep
    dsimp only at hstep
    split at hstep
    next hd =>
      obtain ⟨⟨fs, dp, r⟩, hcall, hsome⟩ := Option.bind_eq_some_iff.mp hstep
      obtain rfl := Option.some.inj hsome
      exact h.find hd hcall
    next => cases hstep
  | create faRead faWrite sclust fn tm clust buf =>
    unfold fileStep at hstep
    dsimp only at hstep
    split at hstep
    next hd =>
      obtain ⟨⟨fs, r⟩, hcall, hsome⟩ := Option.bind_eq_some_iff.mp hstep
      obtain rfl := Option.some.inj hsome
      exact h.create hd hcall
    next => cases hstep
  | read i btr =>
    obtain ⟨t, ht, hstep⟩ := Option.bind_eq_some_iff.mp hstep
    obtain ⟨⟨fs, fp, r, bytes⟩, hcall, hsome⟩ := Option.bind_eq_some_iff.mp hstep
    obtain rfl := Option.some.inj hsome
    exact h.call ht (.ite ⟨rfl, rfl, rfl⟩ ⟨rfl, rfl, rfl⟩) fun chain hm htracks =>
      htracks.read hm hcall
  | write i buff =>
    unfold fileStep at hstep
    dsimp only at hstep
    split at hstep
    next hbuff =>
      obtain ⟨t, ht, hstep⟩ := Option.bind_eq_some_iff.mp hstep
      obtain ⟨⟨fs, fp, r, bw⟩, hcall, hsome⟩ := Option.bind_eq_some_iff.mp hstep
      obtain rfl := Option.some.inj hsome
      exact h.call ht (.ite ⟨rfl, rfl, rfl⟩ ⟨rfl, rfl, rfl⟩) fun chain hm htracks =>
        htracks.write hm hbuff hcall
    next => cases hstep
  | seek i ofs =>
    unfold fileStep at hstep
    dsimp only at hstep
    split at hstep
    next hofs =>
      obtain ⟨t, ht, hstep⟩ := Option.bind_eq_some_iff.mp hstep
      obtain ⟨⟨fs, fp, r⟩, hcall, hsome⟩ := Option.bind_eq_some_iff.mp hstep
      obtain rfl := Option.some.inj hsome
      exact h.call ht (.ite ⟨rfl, rfl, rfl⟩ ⟨rfl, rfl, rfl⟩) fun chain hm htracks =>
        htracks.seek hm hofs hcall
    next => cases hstep
  | truncate i =>
    obtain ⟨t, ht, hstep⟩ := Option.bind_eq_some_iff.mp hstep
    obtain ⟨⟨fs, fp, r⟩, hcall, hsome⟩ := Option.bind_eq_some_iff.mp hstep
    obtain rfl := Option.some.inj hsome
    exact h.call ht (.ite ⟨rfl, rfl, rfl⟩ ⟨rfl, rfl, rfl⟩) fun chain hm htracks =>
      htracks.truncate hm hcall
  | sync i tm =>
    obtain ⟨t, ht, hstep⟩ := Option.bind_eq_some_iff.mp hstep
    split at hstep
    next hgood =>
      dsimp only at hstep
      split at hstep
      next hshows =>
        obtain rfl := Option.some.inj hstep
        exact (h.syncTurns ht hgood.1 hgood.2 rfl hshows).2
      next => cases hstep
    next => cases hstep

end PosixRtos.Fs
