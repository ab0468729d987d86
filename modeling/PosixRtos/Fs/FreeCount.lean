import PosixRtos.Fs.Mount

/-! `f_getfree`: the number of free clusters, from the running count or from the FAT. A FAT12 is
read entry by entry; the entries of the other types do not cross a sector and are taken from
the window one after the other. -/
namespace PosixRtos.Fs

open PosixRtos.Library.ByteMemory PosixRtos.Library.Runs
open PosixRtos.Heap (word sub32)

section

variable (faults : Faults) (g : Geometry)

/-- The loop over a FAT12, with `left` entries to go. -/
def scanEntries : Nat → FatFs → Nat → Nat → FatFs × FResult × Nat
  | 0, s, _, nfree => (s, .ok, nfree)
  | left + 1, s, clst, nfree =>
      let (s, stat) := getFat faults g s clst
      if stat = diskError then (s, .diskErr, nfree)
      else if stat = 1 then (s, .intErr, nfree)
      else scanEntries left s (clst + 1) (if stat = 0 then nfree + 1 else nfree)

/-- The bytes of an entry that does not cross a sector. -/
def entrySize (t : FatType) : Nat := if t = .fat16 then 2 else 4

def freeAt (win : Memory) (p : Nat) : Bool :=
  if g.fsType = .fat16 then load16 win p = 0 else load32 win p &&& 0x0fffffff = 0

/-- The loop over the sectors: `i` bytes of the window are still to be read. -/
def scanSectors : Nat → FatFs → Nat → Nat → Nat → FatFs × FResult × Nat
  | 0, s, _, _, nfree => (s, .ok, nfree)
  | clst + 1, s, sect, i, nfree =>
      let (s, res, sect, i) := if i = 0 then
          let (s, res) := moveWindow faults g s sect
          (s, res, word (sect + 1), ss)
        else (s, .ok, sect, i)
      if res ≠ .ok then (s, res, nfree)
      else scanSectors clst s sect (i - entrySize g.fsType)
        (if freeAt g s.win (ss - i) then nfree + 1 else nfree)

/-- `f_getfree` of a mounted volume. The count is kept also where the scan was broken off. -/
def fGetfree (s : FatFs) : FatFs × FResult × Nat :=
  if s.freeClust ≤ sub32 g.nFatent 2 then (s, .ok, s.freeClust)
  else
    let (s, res, nfree) := if g.fsType = .fat12 then scanEntries faults g (g.nFatent - 2) s 2 0
      else scanSectors faults g g.nFatent s g.fatbase 0 0
    ({ s with freeClust := nfree, fsiFlag := s.fsiFlag ||| 1 }, res, nfree)

end

variable {faults : Faults} {vol : Volume} {s s' : FatFs} {c n : Nat}

/-- The free ones among the `n` entries from `c` on. -/
def freeAmong (vol : Volume) (s : FatFs) (c n : Nat) : Nat :=
  (List.range' c n).countP fun c => fatEntry vol.toGeometry s.view c = 0

theorem freeAmong_succ (vol : Volume) (s : FatFs) (c n : Nat) : freeAmong vol s c (n + 1) =
    (if fatEntry vol.toGeometry s.view c = 0 then 1 else 0) + freeAmong vol s (c + 1) n := by
  unfold freeAmong
  rw [List.range'_succ, List.countP_cons, Nat.add_comm]
  simp

theorem Kept.freeAmong (hkept : Kept vol.toGeometry s s') (hn : c + n ≤ vol.nFatent) :
    freeAmong vol s' c n = freeAmong vol s c n := by
  apply List.countP_congr
  intro d hd
  rw [hkept.entry (by have := List.mem_range'_1.mp hd; omega)]

theorem scanEntries_spec (faults : Faults) (hclst : 2 ≤ c) (hc : Coherent s)
    (hn : c + n = vol.nFatent)
    (nfree : Nat) : ∃ s' r m, scanEntries faults vol.toGeometry n s c nfree = (s', r, m) ∧
      Kept vol.toGeometry s s' ∧ (r = .ok ∧ m = nfree + freeAmong vol s c n ∨
        r = .diskErr ∧ Faulty faults ∨ r = .intErr ∧ ¬ NoOnes vol s) := by
  induction n generalizing s c nfree with
  | zero => exact ⟨s, .ok, nfree, rfl, .refl hc, .inl ⟨rfl, rfl⟩⟩
  | succ n ih =>
    have hlt : c < vol.nFatent := by omega
    obtain ⟨s₁, v, hget⟩ : ∃ s₁ v, getFat faults vol.toGeometry s c = (s₁, v) := ⟨_, _, rfl⟩
    obtain ⟨hkept, hv⟩ := getFat_spec hc hclst hlt hget
    unfold scanEntries
    rw [hget]
    dsimp only
    rcases hv with rfl | ⟨rfl, hfaulty⟩
    · have hentry : fatEntry vol.toGeometry s.view c ≠ diskError := by
        have hle := fatEntry_lt vol.toGeometry s.view c
        have hlast := lastLink_lt vol.fsType
        unfold diskError
        omega
      rw [if_neg hentry]
      split
      next hone =>
        refine ⟨s₁, .intErr, nfree, rfl, hkept, .inr (.inr ⟨rfl, fun hones => ?_⟩)⟩
        exact hones c hclst hlt hone
      next =>
        obtain ⟨s', r, m, hscan, hkept', hr⟩ := ih (c := c + 1) (by omega) hkept.coherent (by omega)
          (if fatEntry vol.toGeometry s.view c = 0 then nfree + 1 else nfree)
        refine ⟨s', r, m, hscan, hkept.trans hkept', ?_⟩
        rw [hkept.noOnes_iff, hkept.freeAmong (by omega)] at hr
        refine hr.imp_left fun ⟨hok, hm⟩ => ⟨hok, ?_⟩
        rw [hm, freeAmong_succ]
        split <;> omega
    · rw [if_pos rfl]
      exact ⟨s₁, .diskErr, nfree, rfl, hkept, .inr (.inl ⟨rfl, hfaulty⟩)⟩

/-! The window as a part of the FAT. -/

theorem entryAddr_size (htype : vol.fsType ≠ .fat12) (c : Nat) :
    vol.entryAddr c = ss * vol.fatbase + entrySize vol.fsType * c := by
  unfold Geometry.entryAddr entrySize
  split
  next h => exact absurd h htype
  next h => rw [h, if_pos rfl]
  next h => rw [h, if_neg (by simp)]

theorem entrySize_cases (t : FatType) : entrySize t = 2 ∨ entrySize t = 4 := by
  unfold entrySize
  split
  · exact .inl rfl
  · exact .inr rfl

/-- The test in the window is the test of the entry. -/
theorem AtByte.free_eq (htype : vol.fsType ≠ .fat12)
    (h : AtByte vol s (entrySize vol.fsType * c)) :
    freeAt vol.toGeometry s.win (entrySize vol.fsType * c % ss) =
      decide (fatEntry vol.toGeometry s.view c = 0) := by
  have hwin : ∀ k < entrySize vol.fsType, s.win (entrySize vol.fsType * c % ss + k) =
      s.view (vol.entryAddr c + k) := by
    intro k hk
    rw [entryAddr_size htype]
    apply h.win
    unfold ss
    rcases entrySize_cases vol.fsType with hsize | hsize
    · rw [hsize] at hk ⊢
      omega
    · rw [hsize] at hk ⊢
      omega
  have hwin₀ := hwin 0 (by rcases entrySize_cases vol.fsType with hsize | hsize <;> omega)
  rw [Nat.add_zero, Nat.add_zero] at hwin₀
  unfold freeAt
  cases hfs : vol.fsType with
  | fat12 => exact absurd hfs htype
  | fat16 =>
    have hsize : entrySize vol.fsType = 2 := by rw [hfs]; rfl
    have hvalue : load16 s.win (entrySize vol.fsType * c % ss) =
        fatEntry vol.toGeometry s.view c := by
      unfold load16 fatEntry
      rw [hwin₀, hwin 1 (by omega), hfs]
    rw [if_pos rfl, ← hvalue, hfs]
  | fat32 =>
    have hsize : entrySize vol.fsType = 4 := by rw [hfs]; rfl
    have hload : load32 s.win (entrySize vol.fsType * c % ss) = load32 s.view (vol.entryAddr c) :=
      load32_eq_iff.mpr fun i hi => hwin i (by omega)
    have hvalue : load32 s.win (entrySize vol.fsType * c % ss) &&& 0x0fffffff =
        fatEntry vol.toGeometry s.view c := by
      unfold fatEntry
      rw [hload, hfs]
      exact Nat.and_two_pow_sub_one_eq_mod _ 28
    rw [if_neg (by simp), ← hvalue, hfs]

/-- What is left of the window at the `c`-th entry. -/
def leftAt (size c : Nat) : Nat := (ss - size * c % ss) % ss

/-- The next entry, at the start of a sector. -/
theorem leftAt_first {size : Nat} (hsize : size = 2 ∨ size = 4) (hleft : leftAt size c = 0) :
    size * c % ss = 0 ∧ leftAt size (c + 1) = ss - size ∧
      (size * c + (ss - 1)) / ss = size * c / ss ∧
      (size * (c + 1) + (ss - 1)) / ss = size * c / ss + 1 := by
  unfold leftAt ss at *
  rcases hsize with rfl | rfl <;> omega

/-- The next entry, inside of a sector. -/
theorem leftAt_inside {size : Nat} (hsize : size = 2 ∨ size = 4) (hleft : leftAt size c ≠ 0) :
    ss - leftAt size c = size * c % ss ∧ leftAt size (c + 1) = leftAt size c - size ∧
      (size * (c + 1) + (ss - 1)) / ss = (size * c + (ss - 1)) / ss := by
  unfold leftAt ss at *
  rcases hsize with rfl | rfl <;> omega

theorem AtByte.next {size : Nat} (hsize : size = 2 ∨ size = 4) (h : AtByte vol s (size * c))
    (hleft : leftAt size (c + 1) ≠ 0) : AtByte vol s (size * (c + 1)) := by
  refine ⟨h.valid, ?_⟩
  have hplace := h.place
  unfold leftAt ss at *
  rcases hsize with rfl | rfl <;> omega

theorem scanSectors_spec (faults : Faults) (htype : vol.fsType ≠ .fat12) (hc : Coherent s)
    (hn : c + n = vol.nFatent)
    (hat : leftAt (entrySize vol.fsType) c ≠ 0 → AtByte vol s (entrySize vol.fsType * c))
    (nfree : Nat) : ∃ s' r m, scanSectors faults vol.toGeometry n s
        (vol.fatbase + (entrySize vol.fsType * c + (ss - 1)) / ss)
        (leftAt (entrySize vol.fsType) c) nfree = (s', r, m) ∧
      Kept vol.toGeometry s s' ∧ (r = .ok ∧ m = nfree + freeAmong vol s c n ∨
        r = .diskErr ∧ Faulty faults) := by
  induction n generalizing s c nfree with
  | zero => exact ⟨s, .ok, nfree, rfl, .refl hc, .inl ⟨rfl, rfl⟩⟩
  | succ n ih =>
    have hlt : c < vol.nFatent := by omega
    have hsize := entrySize_cases vol.fsType
    -- one entry, once the window stands at it
    have hentry : ∀ s₁, Kept vol.toGeometry s s₁ → AtByte vol s₁ (entrySize vol.fsType * c) →
        ∃ s' r m, scanSectors faults vol.toGeometry n s₁
          (vol.fatbase + (entrySize vol.fsType * (c + 1) + (ss - 1)) / ss)
          (leftAt (entrySize vol.fsType) (c + 1))
          (if freeAt vol.toGeometry s₁.win (entrySize vol.fsType * c % ss) then nfree + 1
            else nfree) = (s', r, m) ∧
        Kept vol.toGeometry s s' ∧ (r = .ok ∧ m = nfree + freeAmong vol s c (n + 1) ∨
          r = .diskErr ∧ Faulty faults) := by
      intro s₁ hkept hat₁
      rw [hat₁.free_eq htype, hkept.entry hlt]
      obtain ⟨s', r, m, hscan, hkept', hr⟩ := ih (c := c + 1) hkept.coherent (by omega)
        (hat₁.next hsize) (if fatEntry vol.toGeometry s.view c = 0 then nfree + 1 else nfree)
      refine ⟨s', r, m, by simpa using hscan, hkept.trans hkept', ?_⟩
      refine hr.imp_left fun ⟨hok, hm⟩ => ⟨hok, ?_⟩
      rw [hm, hkept.freeAmong (by omega), freeAmong_succ]
      split <;> omega
    unfold scanSectors
    dsimp only
    by_cases hleft : leftAt (entrySize vol.fsType) c = 0
    · obtain ⟨hstart, hnext, hsect, hsect'⟩ := leftAt_first hsize hleft
      have hb : entrySize vol.fsType * c < ss * vol.fsize :=
        byte_lt (k := 0) hlt (entryAddr_size htype c) (.inl (by omega))
      have hbelow : vol.fatbase + vol.fsize < 2 ^ 32 := by
        have hone := vol.one_fat
        have hfats := vol.fats_below
        have hdata := vol.data_fits
        omega
      have hquot : entrySize vol.fsType * c / ss < vol.fsize := Nat.div_lt_of_lt_mul hb
      have hword : word (vol.fatbase + entrySize vol.fsType * c / ss) =
        vol.fatbase + entrySize vol.fsType * c / ss := Nat.mod_eq_of_lt (by omega)
      obtain ⟨s₁, r₁, hmove⟩ : ∃ s₁ r₁, moveWindow faults vol.toGeometry s
        (word (vol.fatbase + entrySize vol.fsType * c / ss)) = (s₁, r₁) := ⟨_, _, rfl⟩
      rw [if_pos hleft, hsect, ← hword, hmove]
      dsimp only
      obtain ⟨hkept, ⟨rfl, hat₁⟩ | ⟨rfl, hfaulty⟩⟩ := moveFat_spec hc hb hmove
      · rw [if_neg (by simp), Nat.sub_self, hword]
        have hstep : word (vol.fatbase + entrySize vol.fsType * c / ss + 1) =
            vol.fatbase + (entrySize vol.fsType * (c + 1) + (ss - 1)) / ss := by
          rw [hsect']
          exact Nat.mod_eq_of_lt (by omega)
        rw [hstep, ← hnext]
        have hdone := hentry s₁ hkept hat₁
        rw [hstart] at hdone
        exact hdone
      · rw [if_pos (by simp)]
        exact ⟨s₁, .diskErr, nfree, rfl, hkept, .inr ⟨rfl, hfaulty⟩⟩
    · obtain ⟨hoffset, hnext, hsect⟩ := leftAt_inside hsize hleft
      rw [if_neg hleft]
      dsimp only
      rw [if_neg (by simp), hoffset, ← hnext, ← hsect]
      exact hentry s (.refl hc) (hat hleft)

/-! The call. -/

/-- The two entries in front of the clusters, which the scan of the sectors passes too, are
not 0. -/
def Reserved (vol : Volume) (s : FatFs) : Prop :=
  vol.fsType ≠ .fat12 →
    fatEntry vol.toGeometry s.view 0 ≠ 0 ∧ fatEntry vol.toGeometry s.view 1 ≠ 0

theorem Reserved.freeAmong (h : Reserved vol s) (htype : vol.fsType ≠ .fat12) :
    freeAmong vol s 0 vol.nFatent = freeAmong vol s 2 (vol.nFatent - 2) := by
  obtain ⟨h₀, h₁⟩ := h htype
  have hmore := vol.clusters
  obtain ⟨n, hn⟩ : ∃ n, vol.nFatent = n + 1 + 1 := ⟨vol.nFatent - 2, by omega⟩
  rw [hn, freeAmong_succ, freeAmong_succ, if_neg h₀, if_neg h₁]
  simp

theorem Reserved.congr (h : Reserved vol s)
    (hsame : ∀ c < 2, fatEntry vol.toGeometry s'.view c = fatEntry vol.toGeometry s.view c) :
    Reserved vol s' := by
  intro htype
  rw [hsame 0 (by decide), hsame 1 (by decide)]
  exact h htype

/-- `get_fat` and `put_fat` do not touch these two entries. -/
theorem Reserved.stable (faults : Faults) (vol : Volume) :
    FatStable faults vol fun s => Coherent s ∧ Reserved vol s := by
  have hmore := vol.clusters
  constructor
  · rintro s clst ⟨hc, h⟩
    have hkept := getFat_kept faults vol hc clst
    exact ⟨hkept.coherent, h.congr fun c hc2 => hkept.entry (by omega)⟩
  · rintro s clst val hval ⟨hc, h⟩
    by_cases hrange : 2 ≤ clst ∧ clst < vol.nFatent
    · generalize hput : putFat faults vol.toGeometry s clst val = done
      obtain ⟨hchanged, -⟩ := putFat_spec hc hrange.1 hrange.2 hval hput
      exact ⟨hchanged.coherent, h.congr fun c hc2 => hchanged.others c (by omega) (by omega)⟩
    · unfold putFat
      rw [if_pos (by omega)]
      exact ⟨hc, h⟩
  · rintro s lastClust freeClust fsiFlag ⟨hc, h⟩
    exact ⟨⟨hc.clean, hc.valid⟩, h.congr fun _ _ => rfl⟩

/-- Both ways through the FAT count the free clusters. -/
theorem fGetfree_scan (faults : Faults) (hc : Coherent s) (hunknown : s.freeClust = unknownCount)
    (hreserved : Reserved vol s) : ∃ s' r m, fGetfree faults vol.toGeometry s =
        ({ s' with freeClust := m, fsiFlag := s'.fsiFlag ||| 1 }, r, m) ∧
      Kept vol.toGeometry s s' ∧ (r = .ok ∧ m = freeAmong vol s 2 (vol.nFatent - 2) ∨
        r = .diskErr ∧ Faulty faults ∨ r = .intErr ∧ ¬ NoOnes vol s) := by
  have hmore := vol.clusters
  have hsmall := vol.nFatent_lt
  have hlimit : ¬ s.freeClust ≤ sub32 vol.nFatent 2 := by
    rw [hunknown]
    unfold unknownCount sub32 word
    omega
  unfold fGetfree
  rw [if_neg hlimit]
  dsimp only
  split
  next =>
    obtain ⟨s', r, m, hscan, hkept, hr⟩ := scanEntries_spec faults le_rfl hc
      (show 2 + (vol.nFatent - 2) = vol.nFatent by omega) 0
    rw [hscan]
    exact ⟨s', r, m, rfl, hkept, by rwa [Nat.zero_add] at hr⟩
  next htype =>
    have hstart : leftAt (entrySize vol.fsType) 0 = 0 := by
      unfold leftAt
      rw [Nat.mul_zero]
      decide
    obtain ⟨s', r, m, hscan, hkept, hr⟩ := scanSectors_spec faults htype hc
      (Nat.zero_add vol.nFatent) (fun hleft => absurd hstart hleft) 0
    rw [hstart, Nat.mul_zero, Nat.zero_add, show (ss - 1) / ss = 0 from rfl, Nat.add_zero] at hscan
    rw [hscan]
    rw [Nat.zero_add, hreserved.freeAmong htype] at hr
    exact ⟨s', r, m, rfl, hkept, hr.imp_right .inl⟩

variable {st st' : Store}

/-- The clusters that are in no chain are those that are counted. -/
theorem Sound.free_and_used (h : Sound vol st) :
    freeAmong vol st.fs 2 (vol.nFatent - 2) + st.chains.flatten.length = vol.nFatent - 2 := by
  have hused : ((List.range' 2 (vol.nFatent - 2)).filter (· ∈ st.chains.flatten)).Perm
      st.chains.flatten := by
    rw [List.perm_ext_iff_of_nodup ((List.nodup_range' ..).filter _) h.apart]
    intro c
    simp only [List.mem_filter, List.mem_range'_1, decide_eq_true_eq, and_iff_right_iff_imp]
    intro hc
    have := h.range hc
    omega
  have hfree : freeAmong vol st.fs 2 (vol.nFatent - 2) =
      (List.range' 2 (vol.nFatent - 2)).countP fun c => ¬ c ∈ st.chains.flatten := by
    apply List.countP_congr
    intro c hc
    rw [List.mem_range'_1] at hc
    simp only [decide_eq_true_eq]
    constructor
    · intro hzero hmem
      have := h.used hmem
      omega
    · exact h.free c (by omega) (by omega)
  have hsplit := List.length_eq_countP_add_countP (· ∈ st.chains.flatten)
    (l := List.range' 2 (vol.nFatent - 2))
  rw [List.length_range', List.countP_eq_length_filter, hused.length_eq] at hsplit
  rw [hfree]
  simp only [decide_not, Bool.decide_eq_true] at hsplit ⊢
  omega

/-- As long as no request fails, the number of free clusters that is given is right,
whichever way it is found: in every state that chains are created, stretched and removed in.
It is kept, and it is right to keep it. -/
theorem getfree_counts (hfaults : ¬ Faulty faults) (hstart : Sound vol st)
    (hreserved : Reserved vol st.fs)
    (hrun : Reaches (storeStep faults vol.toGeometry) anyStep st st') :
    ∃ s', fGetfree faults vol.toGeometry st'.fs =
        (s', .ok, vol.nFatent - 2 - st'.chains.flatten.length) ∧ Sound vol ⟨s', st'.chains⟩ ∧
      s'.freeClust = vol.nFatent - 2 - st'.chains.flatten.length := by
  have hsound : Sound vol st' :=
    hrun.invariant (Sound vol) hstart fun _ _ _ hs _ hstep => hs.step hfaults hstep
  have hkept : Coherent st'.fs ∧ Reserved vol st'.fs := by
    apply hrun.invariant (fun st => Coherent st.fs ∧ Reserved vol st.fs)
    · exact ⟨hstart.coherent, hreserved⟩
    · intro st₁ st₂ act h _ hstep
      exact (Reserved.stable faults vol).storeStep h hstep
  have hreserved := hkept.2
  rcases hsound.counted with hunknown | hknown
  · obtain ⟨s₁, r, m, hcall, hkept, ⟨rfl, hm⟩ | ⟨-, hfaulty⟩ | ⟨-, hones⟩⟩ :=
      fGetfree_scan faults hsound.coherent hunknown hreserved
    · have hfree := hsound.free_and_used
      have hafter := hsound.kept hkept
      obtain rfl : m = vol.nFatent - 2 - st'.chains.flatten.length := by omega
      refine ⟨_, hcall, ⟨⟨hafter.coherent.clean, hafter.coherent.valid⟩, hafter.chain,
        hafter.apart, hafter.free, .inr ?_⟩, rfl⟩
      dsimp only
      omega
    · exact absurd hfaulty hfaults
    · exact absurd hsound.noOnes hones
  · refine ⟨st'.fs, ?_, hsound, by omega⟩
    have hmore := vol.clusters
    have hsmall := vol.nFatent_lt
    have hlimit : st'.fs.freeClust ≤ sub32 vol.nFatent 2 := by
      unfold sub32 word
      omega
    unfold fGetfree
    rw [if_pos hlimit, ← hknown, Nat.add_sub_cancel]

theorem blank_uncounted : Sound smallVolume ⟨{ blankFs with freeClust := unknownCount }, []⟩ where
  coherent := ⟨blankFs_coherent.clean, blankFs_coherent.valid⟩
  chain := blank_sound.chain
  apart := blank_sound.apart
  free := blank_sound.free
  counted := .inl rfl

theorem getfree_counts_one : ∃ st, runInputs (storeStep (fun _ => none) smallVolume.toGeometry)
      anyStep [.create, .stretch 0] ⟨{ blankFs with freeClust := unknownCount }, []⟩ = some st ∧
    ∃ s', fGetfree (fun _ => none) smallVolume.toGeometry st.fs = (s', .ok, 1) := by
  have hend : (runInputs (storeStep (fun _ => none) smallVolume.toGeometry) anyStep
      [.create, .stretch 0] ⟨{ blankFs with freeClust := unknownCount }, []⟩).map
        (fun st => st.chains) = some [[2, 3]] := by
    decide +kernel
  obtain ⟨st, hrun, hchains⟩ := Option.map_eq_some_iff.mp hend
  obtain ⟨s', hcall, -⟩ := getfree_counts (fun ⟨_, hne⟩ => hne rfl) blank_uncounted
    (fun htype => absurd rfl htype) (Reaches.of_runInputs hrun)
  rw [hchains] at hcall
  exact ⟨st, hrun, s', hcall⟩

end PosixRtos.Fs
