import PosixRtos.Library.Chains
import PosixRtos.Fs.Clusters

/-! Chains of clusters: `remove_chain`, and any number of files that grow and are removed. -/
namespace PosixRtos.Fs

open PosixRtos.Library.ByteMemory PosixRtos.Library.Overlay PosixRtos.Library.Chains
open PosixRtos.Library.Runs
open PosixRtos.Heap (word sub32)

variable {faults : Faults} {vol : Volume} {s s' : FatFs} {c clst : Nat} {cs : List Nat}

/-- The clusters `cs` are linked through the FAT. -/
def Chain (vol : Volume) (s : FatFs) (cs : List Nat) : Prop :=
  Linked (fatEntry vol.toGeometry s.view) (vol.nFatent ≤ ·) cs ∧
    ∀ c ∈ cs, 2 ≤ c ∧ c < vol.nFatent

theorem Chain.tail (h : Chain vol s (c :: cs)) : Chain vol s cs :=
  ⟨h.1.tail, fun d hd => h.2 d (List.mem_cons_of_mem c hd)⟩

theorem Chain.congr (h : Chain vol s cs) (hentries : ∀ c ∈ cs,
    fatEntry vol.toGeometry s'.view c = fatEntry vol.toGeometry s.view c) : Chain vol s' cs :=
  ⟨h.1.congr hentries, h.2⟩

/-- The entry of a cluster of a chain is the next one or an end. -/
theorem Chain.entry_cases (h : Chain vol s cs) (hc : c ∈ cs) :
    2 ≤ fatEntry vol.toGeometry s.view c := by
  have hclusters := vol.clusters
  rcases h.1.mem_cases hc with hmem | hend
  · exact (h.2 _ hmem).1
  · change vol.nFatent ≤ _ at hend
    omega

/-- A chain that has got a cluster. -/
theorem Allocated.chain {ncl : Nat} (halloc : Allocated vol s s' clst ncl) (hchain : Chain vol s cs)
    (hnodup : cs.Nodup) (hclst : clst = cs.getLast?.getD 0) :
    ncl ∉ cs ∧ Chain vol s' (cs ++ [ncl]) := by
  have hfresh : ncl ∉ cs := by
    intro hmem
    have hused := hchain.entry_cases hmem
    rw [halloc.free] at hused
    omega
  have hend : vol.nFatent ≤ fatEntry vol.toGeometry s'.view ncl := by
    rw [halloc.entries ncl halloc.range.1 halloc.range.2, if_pos rfl]
    exact vol.ends_known
  refine ⟨hfresh, ?_, ?_⟩
  · cases hcs : cs.getLast? with
    | none =>
      rw [List.getLast?_eq_none_iff.mp hcs]
      exact hend
    | some last =>
      rw [hcs, Option.getD_some] at hclst
      subst hclst
      obtain ⟨ds, rfl⟩ := List.getLast?_eq_some_iff.mp hcs
      rw [List.append_assoc]
      have hnotin : clst ∉ ds := fun hin =>
        (List.nodup_append.mp hnodup).2.2 clst hin clst List.mem_cons_self rfl
      apply hchain.1.extend
      · intro c hc
        have hrange := hchain.2 c (List.mem_append_left _ hc)
        rw [halloc.entries c hrange.1 hrange.2, if_neg, if_neg]
        · rintro rfl
          exact hnotin hc
        · rintro rfl
          exact hfresh (List.mem_append_left _ hc)
      · have hrange := hchain.2 clst (by simp)
        rw [halloc.entries clst hrange.1 hrange.2, if_pos rfl, if_neg]
        rintro rfl
        exact hfresh (by simp)
      · exact hend
  · intro c hc
    rcases List.mem_append.mp hc with hc | hc
    · exact hchain.2 c hc
    · obtain rfl := List.mem_singleton.mp hc
      exact halloc.range

/-! `remove_chain` -/

/-- The count of free clusters when `n` more are free. -/
def addFree (freeClust n : Nat) : Nat :=
  if freeClust = unknownCount then unknownCount else freeClust + n

/-- A count that is known can take `n` more. -/
def RoomFor (freeClust n : Nat) : Prop := freeClust = unknownCount ∨ freeClust + n < unknownCount

/-- The clusters of the chain have been made free, and nothing else. -/
structure Removed (vol : Volume) (s s' : FatFs) (cs : List Nat) : Prop where
  fatOnly : FatOnly vol.toGeometry s s'
  entries : ∀ c, 2 ≤ c → c < vol.nFatent → fatEntry vol.toGeometry s'.view c =
    if c ∈ cs then 0 else fatEntry vol.toGeometry s.view c
  freeClust : RoomFor s.freeClust cs.length → s'.freeClust = addFree s.freeClust cs.length

theorem countFree_view (s : FatFs) : (countFree s).view = s.view := by
  unfold countFree
  split <;> rfl

theorem countFree_coherent (hc : Coherent s) : Coherent (countFree s) := by
  unfold countFree
  split
  · exact ⟨hc.clean, hc.valid⟩
  · exact hc

theorem countFree_freeClust {n : Nat} (hroom : RoomFor s.freeClust (n + 1)) :
    RoomFor (countFree s).freeClust n ∧
      addFree (countFree s).freeClust n = addFree s.freeClust (n + 1) := by
  unfold RoomFor at hroom ⊢
  unfold addFree countFree
  by_cases hunknown : s.freeClust = unknownCount
  · rw [if_neg (by simpa using hunknown), if_pos hunknown, if_pos hunknown]
    exact ⟨.inl hunknown, rfl⟩
  · have hlt := hroom.resolve_left hunknown
    have hword : word (s.freeClust + 1) = s.freeClust + 1 := by
      apply Nat.mod_eq_of_lt
      unfold unknownCount at hlt
      omega
    rw [if_pos hunknown, if_neg hunknown]
    dsimp only
    rw [hword, if_neg (by omega)]
    exact ⟨.inr (by omega), by omega⟩

theorem removeLoop_succ (fuel : Nat) (s : FatFs) (clst : Nat) (hclst : 2 ≤ clst)
    (hlt : clst < vol.nFatent) (hc : Coherent s) :
    ∃ s₁, Limited vol s s₁ [clst] ∧
      ((∃ r, removeLoop faults vol.toGeometry (fuel + 1) s clst = some (s₁, r) ∧
        (r = .diskErr ∧ Faulty faults ∨ r ≠ .diskErr ∧
          fatEntry vol.toGeometry s.view clst < 2)) ∨
      removeLoop faults vol.toGeometry (fuel + 1) s clst =
          removeLoop faults vol.toGeometry fuel (countFree s₁)
            (fatEntry vol.toGeometry s.view clst) ∧
        2 ≤ fatEntry vol.toGeometry s.view clst ∧
        fatEntry vol.toGeometry s₁.view clst = 0 ∧ Changed vol.toGeometry clst s s₁) := by
  have hlimit := fatEntry_lt vol.toGeometry s.view clst
  rw [removeLoop, if_pos hlt]
  obtain ⟨s₁, nxt, hget⟩ : ∃ s₁ nxt, getFat faults vol.toGeometry s clst = (s₁, nxt) :=
    ⟨_, _, rfl⟩
  rw [hget]
  dsimp only
  obtain ⟨hkept, rfl | ⟨rfl, hfaulty⟩⟩ := getFat_spec hc hclst hlt hget
  · split
    next hzero => exact ⟨s₁, hkept.limited _, .inl ⟨_, rfl, .inr ⟨by simp, by omega⟩⟩⟩
    next hnonzero =>
      split
      next hone => exact ⟨s₁, hkept.limited _, .inl ⟨_, rfl, .inr ⟨by simp, by omega⟩⟩⟩
      next hnotone =>
        rw [if_neg (by unfold diskError; omega)]
        obtain ⟨s₂, r₂, hput⟩ : ∃ s₂ r₂, putFat faults vol.toGeometry s₁ clst 0 = (s₂, r₂) :=
          ⟨_, _, rfl⟩
        rw [hput]
        dsimp only
        obtain ⟨hchanged, ⟨rfl, hval⟩ | ⟨rfl, hfaulty, -⟩⟩ :=
          putFat_spec hkept.coherent hclst hlt (by decide) hput
        · have hboth := (hkept.changed clst).trans hchanged
          rw [Nat.zero_mod] at hval
          exact ⟨s₂, hboth.limited (.inl List.mem_cons_self),
            .inr ⟨if_neg (by simp), by omega, hval, hboth⟩⟩
        · exact ⟨s₂, (hkept.limited _).trans (hchanged.limited (.inl List.mem_cons_self)),
            .inl ⟨_, rfl, .inl ⟨rfl, hfaulty⟩⟩⟩
  · exact ⟨s₁, hkept.limited _, .inl ⟨_, rfl, .inl ⟨rfl, hfaulty⟩⟩⟩

theorem removeLoop_end (fuel : Nat) (s : FatFs) (hend : vol.nFatent ≤ clst) :
    removeLoop faults vol.toGeometry (fuel + 1) s clst = some (s, .ok) := by
  rw [removeLoop, if_neg (by omega)]

theorem Limited.counted (hfat : Limited vol s s' cs) : Limited vol s (countFree s') cs := by
  refine ⟨⟨countFree_coherent hfat.coherent, ?_⟩, ?_⟩
  · rw [countFree_view]
    exact hfat.outside
  · rw [countFree_view]
    exact hfat.others

/-- The loop follows the chain and makes its clusters free one by one. -/
theorem removeLoop_spec (cs : List Nat) (c fuel : Nat) (s : FatFs) (hc : Coherent s)
    (hchain : Chain vol s (c :: cs)) (hnodup : (c :: cs).Nodup) (hfuel : cs.length + 1 < fuel) :
    ∃ s' r, removeLoop faults vol.toGeometry fuel s c = some (s', r) ∧
      Limited vol s s' (c :: cs) ∧
      (r = .diskErr ∧ Faulty faults ∨ r = .ok ∧ Removed vol s s' (c :: cs)) := by
  induction cs generalizing c fuel s with
  | nil =>
    obtain ⟨m, rfl⟩ : ∃ m, fuel = m + 1 + 1 := ⟨fuel - 2, by simp at hfuel; omega⟩
    obtain ⟨hc2, hlt⟩ := hchain.2 c List.mem_cons_self
    obtain ⟨s₁, hfat, ⟨r, hloop, hr⟩ | ⟨hloop, -, hzero, hchanged⟩⟩ :=
      removeLoop_succ (m + 1) s c hc2 hlt hc
    · rcases hr with hfailed | ⟨-, hsmall⟩
      · exact ⟨s₁, r, hloop, hfat, .inl hfailed⟩
      · have := hchain.entry_cases List.mem_cons_self
        omega
    · rw [removeLoop_end m _ hchain.1] at hloop
      refine ⟨_, _, hloop, hfat.counted, .inr ⟨rfl, hfat.counted.toFatOnly, ?_, ?_⟩⟩
      · intro d hd2 hdlt
        rw [countFree_view]
        simp only [List.mem_singleton]
        split
        next heq => rw [heq, hzero]
        next hne => exact hchanged.others d hdlt hne
      · intro hroom
        have hcount := countFree_freeClust (s := s₁) (n := 0) (by rwa [hchanged.freeClust])
        rw [hchanged.freeClust] at hcount
        rw [List.length_singleton, ← hcount.2]
        unfold addFree
        split
        next h => exact h
        next => rfl
  | cons d ds ih =>
    obtain ⟨m, rfl⟩ : ∃ m, fuel = m + 1 := ⟨fuel - 1, by omega⟩
    obtain ⟨hc2, hlt⟩ := hchain.2 c List.mem_cons_self
    obtain ⟨hnotin, hnodup'⟩ := List.nodup_cons.mp hnodup
    obtain ⟨s₁, hfat, ⟨r, hloop, hr⟩ | ⟨hloop, -, hzero, hchanged⟩⟩ :=
      removeLoop_succ m s c hc2 hlt hc
    · rcases hr with hfailed | ⟨-, hsmall⟩
      · exact ⟨s₁, r, hloop, hfat.mono (by simp), .inl hfailed⟩
      · have := hchain.entry_cases List.mem_cons_self
        omega
    · have hrest : Chain vol (countFree s₁) (d :: ds) := by
        apply hchain.tail.congr
        intro e he
        have hrange := hchain.tail.2 e he
        rw [countFree_view]
        exact hchanged.others e hrange.2 fun heq => hnotin (heq ▸ he)
      obtain ⟨s₂, r, hloop₂, hfat₂, hr⟩ := ih d m (countFree s₁)
        (countFree_coherent hfat.coherent) hrest hnodup' (by simp at hfuel; omega)
      rw [hchain.1.1] at hloop
      have hboth : Limited vol s s₂ (c :: d :: ds) :=
        (hfat.counted.mono (by simp)).trans (hfat₂.mono (List.subset_cons_self c _))
      refine ⟨s₂, r, hloop.trans hloop₂, hboth, hr.imp_right ?_⟩
      rintro ⟨rfl, hremoved⟩
      refine ⟨rfl, hboth.toFatOnly, ?_, ?_⟩
      · intro e he2 helt
        rw [hremoved.entries e he2 helt, countFree_view]
        by_cases hmem : e ∈ d :: ds
        · rw [if_pos hmem, if_pos (List.mem_cons_of_mem c hmem)]
        · rw [if_neg hmem]
          by_cases heq : e = c
          · rw [heq, hzero, if_pos List.mem_cons_self]
          · rw [hchanged.others e helt heq, if_neg]
            simp [List.mem_cons, heq] at hmem ⊢
            exact hmem
      · intro hroom
        have hcount := countFree_freeClust (s := s₁) (n := ds.length + 1)
          (by rw [hchanged.freeClust]; exact hroom)
        rw [hremoved.freeClust hcount.1, List.length_cons, hcount.2, hchanged.freeClust,
          List.length_cons, List.length_cons]

/-- A chain that starts in `clst` is made free as a whole. -/
theorem removeChain_spec (hc : Coherent s) (hchain : Chain vol s (clst :: cs))
    (hnodup : (clst :: cs).Nodup) :
    ∃ s' r, removeChain faults vol.toGeometry s clst = some (s', r) ∧
      Limited vol s s' (clst :: cs) ∧
      (r = .diskErr ∧ Faulty faults ∨ r = .ok ∧ Removed vol s s' (clst :: cs)) := by
  obtain ⟨hclst, hlt⟩ := hchain.2 clst List.mem_cons_self
  unfold removeChain
  rw [if_neg (by omega)]
  apply removeLoop_spec cs clst _ s hc hchain hnodup
  have hlength : (clst :: cs).length ≤ (Finset.Ico 2 vol.nFatent).card := by
    rw [← List.toFinset_card_of_nodup hnodup]
    apply Finset.card_le_card
    intro c hmem
    rw [Finset.mem_Ico]
    exact hchain.2 c (List.mem_toFinset.mp hmem)
  rw [Nat.card_Ico, List.length_cons] at hlength
  omega

/-- The clusters that are not free. -/
def usedClusters (vol : Volume) (s : FatFs) : Finset Nat :=
  (Finset.Ico 2 vol.nFatent).filter fun c => fatEntry vol.toGeometry s.view c ≠ 0

/-- Each turn of the loop makes a used cluster free, so that it cannot go round for ever:
not on chains that run into each other or into themselves, and not with failing requests. -/
theorem removeLoop_ends (fuel : Nat) (s : FatFs) (clst : Nat) (hc : Coherent s)
    (hclst : 2 ≤ clst) (hfuel : (usedClusters vol s).card < fuel) :
    ∃ s' r, removeLoop faults vol.toGeometry fuel s clst = some (s', r) ∧
      FatOnly vol.toGeometry s s' := by
  induction fuel generalizing s clst with
  | zero => omega
  | succ fuel ih =>
    by_cases hlt : clst < vol.nFatent
    · obtain ⟨s₁, hfat, ⟨r, hloop, -⟩ | ⟨hloop, hnext, hzero, hchanged⟩⟩ :=
        removeLoop_succ fuel s clst hclst hlt hc
      · exact ⟨s₁, r, hloop, hfat.toFatOnly⟩
      · have hused : usedClusters vol (countFree s₁) = (usedClusters vol s).erase clst := by
          ext c
          unfold usedClusters
          rw [countFree_view, Finset.mem_erase, Finset.mem_filter, Finset.mem_filter,
            Finset.mem_Ico]
          by_cases heq : c = clst
          · subst heq
            simp [hzero]
          · simp only [heq, ne_eq, not_false_eq_true, true_and]
            constructor
            · rintro ⟨hrange, hne⟩
              exact ⟨hrange, by rwa [← hchanged.others c hrange.2 heq]⟩
            · rintro ⟨hrange, hne⟩
              exact ⟨hrange, by rwa [hchanged.others c hrange.2 heq]⟩
        have hmem : clst ∈ usedClusters vol s := by
          unfold usedClusters
          rw [Finset.mem_filter, Finset.mem_Ico]
          exact ⟨⟨hclst, hlt⟩, by omega⟩
        have hcard := Finset.card_erase_of_mem hmem
        have hpos := Finset.card_pos.mpr ⟨clst, hmem⟩
        obtain ⟨s₂, r, hloop₂, hfat₂⟩ := ih (countFree s₁) _ (countFree_coherent hfat.coherent)
          hnext (by rw [hused]; omega)
        exact ⟨s₂, r, hloop.trans hloop₂, hfat.counted.toFatOnly.trans hfat₂⟩
    · exact ⟨s, .ok, removeLoop_end fuel s (by omega), hc, fun _ _ _ => rfl⟩

/-- `remove_chain` returns on every FAT, whatever its entries are, and changes nothing
outside of the FAT. -/
theorem removeChain_returns (faults : Faults) (vol : Volume) (s : FatFs) (clst : Nat)
    (hc : Coherent s) : ∃ s' r, removeChain faults vol.toGeometry s clst = some (s', r) ∧
      FatOnly vol.toGeometry s s' := by
  unfold removeChain
  split
  · exact ⟨s, .intErr, rfl, hc, fun _ _ _ => rfl⟩
  next hrange =>
    apply removeLoop_ends _ s clst hc (by omega)
    have hcard : (usedClusters vol s).card ≤ (Finset.Ico 2 vol.nFatent).card :=
      Finset.card_filter_le _ _
    rw [Nat.card_Ico] at hcard
    omega

/-- Clusters 2 and 3 are linked in a circle. -/
def circleFs : FatFs :=
  { blankFs with drive := ⟨write (fun _ => 0) (ss + 3) [0x03#8, 0x20#8, 0x00#8], 0⟩ }

theorem removeChain_returns_circle :
    fatEntry smallVolume.toGeometry circleFs.view 2 = 3 ∧
    fatEntry smallVolume.toGeometry circleFs.view 3 = 2 ∧
    ∃ s' r, removeChain secondFails smallVolume.toGeometry circleFs 2 = some (s', r) ∧
      FatOnly smallVolume.toGeometry circleFs s' :=
  ⟨by decide +kernel, by decide +kernel,
    removeChain_returns secondFails smallVolume circleFs 2
      ⟨fun _ hsector => absurd rfl hsector, fun hdirty => by cases hdirty⟩⟩

/-! What the calls are made of. -/

/-- What `get_fat`, `put_fat` and a change of the counts leave as it is. -/
structure FatStable (faults : Faults) (vol : Volume) (P : FatFs → Prop) : Prop where
  get : ∀ s clst, P s → P (getFat faults vol.toGeometry s clst).1
  put : ∀ s clst val, val < 2 ^ 32 → P s → P (putFat faults vol.toGeometry s clst val).1
  count : ∀ s lastClust freeClust fsiFlag, P s →
    P { s with lastClust := lastClust, freeClust := freeClust, fsiFlag := fsiFlag }

section FatStable

variable {P : FatFs → Prop} {scl fuel ncl v : Nat} {r : FResult}

theorem FatStable.searchStart (hP : FatStable faults vol P) (h : P s) (clst : Nat) :
    P (searchStart faults vol.toGeometry s clst).1 := by
  have hget := hP.get s clst h
  unfold Fs.searchStart
  split
  · exact h
  · dsimp only
    repeat' split
    all_goals exact hget

theorem FatStable.searchFree {r : Except Nat Nat} (hP : FatStable faults vol P) (h : P s)
    (hcall : searchFree faults vol.toGeometry scl fuel s ncl = some (s', r)) :
    P s' ∧ ∀ c, r = .ok c → c < 2 ^ 32 := by
  induction fuel generalizing s ncl with
  | zero => cases hcall
  | succ fuel ih =>
    unfold Fs.searchFree at hcall
    dsimp only at hcall
    have hword : (if vol.nFatent ≤ word (ncl + 1) then 2 else word (ncl + 1)) < 2 ^ 32 := by
      have hlt : word (ncl + 1) < 2 ^ 32 := Nat.mod_lt _ (by decide)
      split
      · decide
      · exact hlt
    generalize (if vol.nFatent ≤ word (ncl + 1) then 2 else word (ncl + 1)) = c at hcall hword
    have hget := hP.get s c h
    split at hcall
    · cases hcall
      exact ⟨h, fun _ hr => by cases hr⟩
    · generalize getFat faults vol.toGeometry s c = got at hcall hget
      split at hcall
      · cases hcall
        refine ⟨hget, fun d hd => ?_⟩
        cases hd
        exact hword
      · split at hcall
        · cases hcall
          exact ⟨hget, fun _ hr => by cases hr⟩
        · split at hcall
          · cases hcall
            exact ⟨hget, fun _ hr => by cases hr⟩
          · exact ih hget hcall

theorem FatStable.linkCluster (hP : FatStable faults vol P) (h : P s) (clst : Nat)
    (hncl : ncl < 2 ^ 32) : P (linkCluster faults vol.toGeometry s clst ncl).1 := by
  have hlast := hP.put s ncl 0x0fffffff (by decide) h
  have hboth := hP.put _ clst ncl hncl hlast
  have hcounted : ∀ {t : FatFs}, P t → P (if t.freeClust ≠ unknownCount then
      { t with lastClust := ncl, freeClust := sub32 t.freeClust 1, fsiFlag := t.fsiFlag ||| 1 }
        else { t with lastClust := ncl }) := by
    intro t ht
    split
    · exact hP.count t _ _ _ ht
    · exact hP.count t _ _ _ ht
  unfold Fs.linkCluster
  dsimp only
  split
  · split
    · exact hcounted hboth
    · exact hboth
  · split
    · exact hcounted hlast
    · exact hlast

theorem FatStable.createChain (hP : FatStable faults vol P) (h : P s)
    (hcall : createChain faults vol.toGeometry s clst = some (s', v)) : P s' := by
  have hstart := hP.searchStart h clst
  unfold Fs.createChain at hcall
  split at hcall
  next hsearch =>
    cases hcall
    rwa [hsearch] at hstart
  next hsearch =>
    rw [hsearch] at hstart
    split at hcall
    next => cases hcall
    next hfree =>
      cases hcall
      exact (hP.searchFree hstart hfree).1
    next hfree =>
      obtain ⟨rfl, rfl⟩ := Prod.mk.inj (Option.some.inj hcall)
      obtain ⟨hsearched, hfound⟩ := hP.searchFree hstart hfree
      exact hP.linkCluster hsearched _ (hfound _ rfl)

theorem FatStable.countFree (hP : FatStable faults vol P) (h : P s) : P (countFree s) := by
  unfold Fs.countFree
  split
  · exact hP.count s _ _ _ h
  · exact h

theorem FatStable.removeLoop (hP : FatStable faults vol P) (h : P s)
    (hcall : removeLoop faults vol.toGeometry fuel s clst = some (s', r)) : P s' := by
  induction fuel generalizing s clst with
  | zero => cases hcall
  | succ fuel ih =>
    have hget := hP.get s clst h
    have hput := hP.put _ clst 0 (by decide) hget
    rw [Fs.removeLoop] at hcall
    split at hcall
    · generalize getFat faults vol.toGeometry s clst = got at hcall hget hput
      obtain ⟨s₁, nxt⟩ := got
      dsimp only at hcall hget hput
      split at hcall
      · cases hcall
        exact hget
      · split at hcall
        · cases hcall
          exact hget
        · split at hcall
          · cases hcall
            exact hget
          · generalize putFat faults vol.toGeometry s₁ clst 0 = put at hcall hput
            split at hcall
            · cases hcall
              exact hput
            · exact ih (hP.countFree hput) hcall
    · cases hcall
      exact h

theorem FatStable.removeChain (hP : FatStable faults vol P) (h : P s)
    (hcall : removeChain faults vol.toGeometry s clst = some (s', r)) : P s' := by
  unfold Fs.removeChain at hcall
  split at hcall
  · cases hcall
    exact h
  · exact hP.removeLoop h hcall

end FatStable

/-! Any number of chains. -/

/-- The file system with the chains that have been created. -/
structure Store where
  fs : FatFs
  chains : List (List Nat)

inductive StoreAct where
  | create
  | stretch (i : Nat)
  | remove (i : Nat)

/-- The value is a cluster and none of the codes of `create_chain`. -/
def isCluster (v : Nat) : Bool := v ≠ 0 ∧ v ≠ 1 ∧ v ≠ diskError

def storeStep (faults : Faults) (g : Geometry) (st : Store) : StoreAct → Option Store
  | .create => do
      let (fs, v) ← createChain faults g st.fs 0
      some ⟨fs, if isCluster v then st.chains ++ [[v]] else st.chains⟩
  | .stretch i => do
      let cs ← st.chains[i]?
      let last ← cs.getLast?
      let (fs, v) ← createChain faults g st.fs last
      some ⟨fs, if isCluster v then st.chains.set i (cs ++ [v]) else st.chains⟩
  | .remove i => do
      let cs ← st.chains[i]?
      let first ← cs.head?
      let (fs, res) ← removeChain faults g st.fs first
      some ⟨fs, if res = .ok then st.chains.eraseIdx i else st.chains⟩

theorem FatStable.storeStep {P : FatFs → Prop} {st st' : Store} {act : StoreAct}
    (hP : FatStable faults vol P) (h : P st.fs)
    (hstep : storeStep faults vol.toGeometry st act = some st') : P st'.fs := by
  cases act with
  | create =>
    obtain ⟨⟨fs, v⟩, hcall, hsome⟩ := Option.bind_eq_some_iff.mp hstep
    obtain rfl := Option.some.inj hsome
    exact hP.createChain h hcall
  | stretch i =>
    obtain ⟨cs, -, hstep⟩ := Option.bind_eq_some_iff.mp hstep
    obtain ⟨last, -, hstep⟩ := Option.bind_eq_some_iff.mp hstep
    obtain ⟨⟨fs, v⟩, hcall, hsome⟩ := Option.bind_eq_some_iff.mp hstep
    obtain rfl := Option.some.inj hsome
    exact hP.createChain h hcall
  | remove i =>
    obtain ⟨cs, -, hstep⟩ := Option.bind_eq_some_iff.mp hstep
    obtain ⟨first, -, hstep⟩ := Option.bind_eq_some_iff.mp hstep
    obtain ⟨⟨fs, r⟩, hcall, hsome⟩ := Option.bind_eq_some_iff.mp hstep
    obtain rfl := Option.some.inj hsome
    exact hP.removeChain h hcall

/-- Every cluster is free or in exactly one chain, and the free ones are counted. -/
structure Sound (vol : Volume) (st : Store) : Prop where
  coherent : Coherent st.fs
  chain : ∀ cs ∈ st.chains, cs ≠ [] ∧ Chain vol st.fs cs
  apart : st.chains.flatten.Nodup
  free : ∀ c, 2 ≤ c → c < vol.nFatent → c ∉ st.chains.flatten →
    fatEntry vol.toGeometry st.fs.view c = 0
  counted : st.fs.freeClust = unknownCount ∨
    st.fs.freeClust + st.chains.flatten.length = vol.nFatent - 2

variable {st st' : Store}

theorem Sound.range (h : Sound vol st) (hc : c ∈ st.chains.flatten) :
    2 ≤ c ∧ c < vol.nFatent := by
  obtain ⟨cs, hcs, hmem⟩ := List.mem_flatten.mp hc
  exact (h.chain cs hcs).2.2 c hmem

theorem Sound.used (h : Sound vol st) (hc : c ∈ st.chains.flatten) :
    2 ≤ fatEntry vol.toGeometry st.fs.view c := by
  obtain ⟨cs, hcs, hmem⟩ := List.mem_flatten.mp hc
  exact (h.chain cs hcs).2.entry_cases hmem

theorem Sound.noOnes (h : Sound vol st) : NoOnes vol st.fs := by
  intro c hc2 hlt
  by_cases hmem : c ∈ st.chains.flatten
  · have := h.used hmem
    omega
  · rw [h.free c hc2 hlt hmem]
    decide

/-- There are as many clusters as there are. -/
theorem length_le_clusters {l : List Nat} (hnodup : l.Nodup)
    (hrange : ∀ c ∈ l, 2 ≤ c ∧ c < vol.nFatent) : l.length ≤ vol.nFatent - 2 := by
  rw [← List.toFinset_card_of_nodup hnodup, ← Nat.card_Ico]
  apply Finset.card_le_card
  intro c hc
  rw [Finset.mem_Ico]
  exact hrange c (List.mem_toFinset.mp hc)

theorem Sound.kept (h : Sound vol st) (hkept : Kept vol.toGeometry st.fs s) :
    Sound vol ⟨s, st.chains⟩ where
  coherent := hkept.coherent
  chain cs hcs := ⟨(h.chain cs hcs).1, (h.chain cs hcs).2.congr fun c hc =>
    hkept.entry ((h.chain cs hcs).2.2 c hc).2⟩
  apart := h.apart
  free c hc2 hlt hmem := by rw [hkept.entry hlt, h.free c hc2 hlt hmem]
  counted := by
    rw [hkept.freeClust]
    exact h.counted

/-- A new cluster: the chains that there are now have it and the old ones, and each of them
is linked. -/
theorem Sound.allocated {ncl : Nat} (h : Sound vol st) (halloc : Allocated vol st.fs s clst ncl)
    (hclst : clst = 0 ∨ clst ∈ st.chains.flatten) {chains : List (List Nat)}
    (hperm : chains.flatten.Perm (ncl :: st.chains.flatten))
    (hchain : chains.flatten.Nodup → ∀ cs ∈ chains, cs ≠ [] ∧ Chain vol s cs) :
    Sound vol ⟨s, chains⟩ := by
  have hfresh : ncl ∉ st.chains.flatten := by
    intro hmem
    have := h.used hmem
    rw [halloc.free] at this
    omega
  have hnodup : (ncl :: st.chains.flatten).Nodup := List.nodup_cons.mpr ⟨hfresh, h.apart⟩
  have hapart : chains.flatten.Nodup := hperm.nodup_iff.mpr hnodup
  refine ⟨halloc.fatOnly.coherent, hchain hapart, hapart, ?_, ?_⟩
  · intro c hc2 hlt hmem
    have hmem' : c ∉ ncl :: st.chains.flatten := fun hin => hmem (hperm.mem_iff.mpr hin)
    rw [List.mem_cons, not_or] at hmem'
    have hne : c ≠ clst := by
      rintro rfl
      rcases hclst with rfl | hin
      · omega
      · exact hmem'.2 hin
    rw [halloc.entries c hc2 hlt, if_neg hmem'.1, if_neg hne]
    exact h.free c hc2 hlt hmem'.2
  · rw [halloc.freeClust, hperm.length_eq, List.length_cons]
    rcases h.counted with hunknown | hcount
    · rw [if_pos hunknown]
      exact .inl rfl
    · have hrange : ∀ c ∈ ncl :: st.chains.flatten, 2 ≤ c ∧ c < vol.nFatent := by
        intro c hc
        rcases List.mem_cons.mp hc with rfl | hc
        · exact halloc.range
        · exact h.range hc
      have hlength := length_le_clusters hnodup hrange
      have hsmall := vol.nFatent_lt
      rw [List.length_cons] at hlength
      refine .inr ?_
      rw [if_neg (by unfold unknownCount; omega)]
      unfold sub32 word
      omega

theorem isCluster_of_range {v : Nat} (hrange : 2 ≤ v ∧ v < vol.nFatent) : isCluster v = true := by
  have hsmall := vol.nFatent_lt
  unfold isCluster diskError
  simp
  omega

theorem Sound.create (h : Sound vol st) (hfaults : ¬ Faulty faults)
    (hstep : storeStep faults vol.toGeometry st .create = some st') : Sound vol st' := by
  obtain ⟨⟨fs, v⟩, hcall, hsome⟩ := Option.bind_eq_some_iff.mp hstep
  obtain rfl := Option.some.inj hsome
  cases createChain_cases h.coherent (.inl rfl) hcall with
  | failed hfaulty _ => exact absurd hfaulty hfaults
  | broken hbroken _ => exact absurd hbroken (by simp [h.noOnes])
  | linked hne _ _ _ => exact absurd rfl hne
  | full _ _ hkept => exact h.kept hkept
  | new _ _ halloc =>
    rw [if_pos (isCluster_of_range halloc.range)]
    apply h.allocated halloc (.inl rfl)
    · rw [List.flatten_append]
      exact List.perm_append_comm
    · intro hnodup cs hcs
      rcases List.mem_append.mp hcs with hold | hnew
      · refine ⟨(h.chain cs hold).1, (h.chain cs hold).2.congr ?_⟩
        intro c hc
        have hrange := (h.chain cs hold).2.2 c hc
        have hne : c ≠ v := by
          rintro rfl
          have := h.used (List.mem_flatten.mpr ⟨cs, hold, hc⟩)
          rw [halloc.free] at this
          omega
        rw [halloc.entries c hrange.1 hrange.2, if_neg hne, if_neg (by omega)]
      · obtain rfl := List.mem_singleton.mp hnew
        have hempty : Chain vol st.fs [] := ⟨trivial, by simp⟩
        exact ⟨by simp, (halloc.chain hempty List.nodup_nil rfl).2⟩

theorem Sound.stretch {i : Nat} (h : Sound vol st) (hfaults : ¬ Faulty faults)
    (hstep : storeStep faults vol.toGeometry st (.stretch i) = some st') : Sound vol st' := by
  obtain ⟨cs, hcs, hstep⟩ := Option.bind_eq_some_iff.mp hstep
  obtain ⟨last, hlast, hstep⟩ := Option.bind_eq_some_iff.mp hstep
  obtain ⟨⟨fs, v⟩, hcall, hsome⟩ := Option.bind_eq_some_iff.mp hstep
  obtain rfl := Option.some.inj hsome
  obtain ⟨hi, rfl⟩ := List.getElem?_eq_some_iff.mp hcs
  obtain ⟨ds, hds⟩ := List.getLast?_eq_some_iff.mp hlast
  have hmem := List.getElem_mem hi
  have hold := (h.chain _ hmem).2
  have hlastmem : last ∈ st.chains[i] := by simp [hds]
  have hflat : last ∈ st.chains.flatten := List.mem_flatten.mpr ⟨_, hmem, hlastmem⟩
  have hend : vol.nFatent ≤ fatEntry vol.toGeometry st.fs.view last := by
    have hlinked := hold.1
    rw [hds] at hlinked
    exact hlinked.last
  cases createChain_cases h.coherent (.inr (h.range hflat)) hcall with
  | failed hfaulty _ => exact absurd hfaulty hfaults
  | broken hbroken _ =>
    have hused := h.used hflat
    obtain ⟨-, hzero⟩ := hbroken.resolve_right (not_not_intro h.noOnes)
    omega
  | linked _ _ hlt _ => omega
  | full _ _ hkept => exact h.kept hkept
  | new _ _ halloc =>
    rw [if_pos (isCluster_of_range halloc.range)]
    apply h.allocated halloc (.inr hflat)
    · exact flatten_set hi [v]
    · intro hnodup cs' hcs'
      -- the stretched chain is linked anew, and no other chain has one of its clusters
      have hfresh : v ∉ st.chains.flatten := by
        intro hin
        have := h.used hin
        rw [halloc.free] at this
        omega
      have hsame : ∀ c, c ∈ st.chains.flatten → c ≠ last →
          fatEntry vol.toGeometry fs.view c = fatEntry vol.toGeometry st.fs.view c := by
        intro c hc hne
        have hrange := h.range hc
        rw [halloc.entries c hrange.1 hrange.2, if_neg hne, if_neg]
        rintro rfl
        exact hfresh hc
      by_cases heq : cs' = st.chains[i] ++ [v]
      · subst heq
        have hnodup' := (List.nodup_flatten.mp h.apart).1 _ hmem
        exact ⟨by simp, (halloc.chain hold hnodup' (by rw [hlast]; rfl)).2⟩
      · have hcs'' : cs' ∈ st.chains := (List.mem_or_eq_of_mem_set hcs').resolve_right heq
        have hdisjoint : List.Disjoint cs' (st.chains[i] ++ [v]) := by
          have : Std.Symm (List.Disjoint (α := Nat)) := ⟨fun _ _ hab => hab.symm⟩
          exact (List.nodup_flatten.mp hnodup).2.forall hcs' (List.mem_set hi _) heq
        refine ⟨(h.chain cs' hcs'').1, (h.chain cs' hcs'').2.congr ?_⟩
        intro c hc
        apply hsame c (List.mem_flatten.mpr ⟨cs', hcs'', hc⟩)
        rintro rfl
        exact hdisjoint hc (List.mem_append_left _ hlastmem)

theorem Sound.removed (faults : Faults) (h : Sound vol st) {i first : Nat} {ds : List Nat}
    (hi : i < st.chains.length) (hds : st.chains[i] = first :: ds) :
    ∃ s' r, removeChain faults vol.toGeometry st.fs first = some (s', r) ∧
      Limited vol st.fs s' st.chains[i] ∧
      (r = .diskErr ∧ Faulty faults ∨ r = .ok ∧ Removed vol st.fs s' st.chains[i]) := by
  have hmem := List.getElem_mem hi
  have hchain := (h.chain _ hmem).2
  have hnodup := (List.nodup_flatten.mp h.apart).1 _ hmem
  rw [hds] at hchain hnodup ⊢
  exact removeChain_spec h.coherent hchain hnodup

theorem Sound.remove {i : Nat} (h : Sound vol st) (hfaults : ¬ Faulty faults)
    (hstep : storeStep faults vol.toGeometry st (.remove i) = some st') : Sound vol st' := by
  obtain ⟨cs, hcs, hstep⟩ := Option.bind_eq_some_iff.mp hstep
  obtain ⟨first, hfirst, hstep⟩ := Option.bind_eq_some_iff.mp hstep
  obtain ⟨⟨fs, r⟩, hcall, hsome⟩ := Option.bind_eq_some_iff.mp hstep
  obtain rfl := Option.some.inj hsome
  obtain ⟨hi, rfl⟩ := List.getElem?_eq_some_iff.mp hcs
  obtain ⟨ds, hds⟩ := List.head?_eq_some_iff.mp hfirst
  have hperm := flatten_eraseIdx hi
  have hlengths := hperm.length_eq
  rw [List.length_append] at hlengths
  have hsmall := vol.nFatent_lt
  obtain ⟨s', r', hremove, hfat, hr⟩ := h.removed faults hi hds
  obtain ⟨rfl, rfl⟩ := Prod.mk.inj (Option.some.inj (hcall.symm.trans hremove))
  rcases hr with ⟨-, hfaulty⟩ | ⟨rfl, hremoved⟩
  · exact absurd hfaulty hfaults
  · rw [if_pos rfl]
    have hapart := hperm.nodup_iff.mp h.apart
    obtain ⟨-, hapart', hdisjoint⟩ := List.nodup_append.mp hapart
    refine ⟨hfat.coherent, ?_, hapart', ?_, ?_⟩
    · intro cs' hcs'
      have hold := h.chain cs' (List.mem_of_mem_eraseIdx hcs')
      refine ⟨hold.1, hold.2.congr ?_⟩
      intro c hc
      have hrange := hold.2.2 c hc
      rw [hremoved.entries c hrange.1 hrange.2, if_neg]
      intro hin
      exact hdisjoint c hin c (List.mem_flatten.mpr ⟨cs', hcs', hc⟩) rfl
    · intro c hc2 hlt hmem'
      rw [hremoved.entries c hc2 hlt]
      split
      · rfl
      next hnotin =>
        apply h.free c hc2 hlt
        rw [hperm.mem_iff, List.mem_append, not_or]
        exact ⟨hnotin, hmem'⟩
    · have hlength := length_le_clusters h.apart fun c hc => h.range hc
      -- the count has room for the clusters of the chain
      have hroom : RoomFor st.fs.freeClust st.chains[i].length := by
        refine h.counted.imp_right fun hcount => ?_
        unfold unknownCount
        omega
      rw [hremoved.freeClust hroom]
      unfold addFree
      rcases h.counted with hunknown | hcount
      · rw [if_pos hunknown]
        exact .inl rfl
      · rw [if_neg (by unfold unknownCount; omega)]
        dsimp only
        omega

/-- The call is about a chain that there is. -/
def StoreAct.Applies (st : Store) : StoreAct → Prop
  | .create => True
  | .stretch i => i < st.chains.length
  | .remove i => i < st.chains.length

theorem Sound.step {act : StoreAct} (h : Sound vol st) (hfaults : ¬ Faulty faults)
    (hstep : storeStep faults vol.toGeometry st act = some st') : Sound vol st' := by
  cases act with
  | create => exact h.create hfaults hstep
  | stretch i => exact h.stretch hfaults hstep
  | remove i => exact h.remove hfaults hstep

/-- The loops of the calls come to an end. -/
theorem Sound.returns (faults : Faults) {act : StoreAct} (h : Sound vol st)
    (happlies : act.Applies st) : ∃ st', storeStep faults vol.toGeometry st act = some st' := by
  cases act with
  | create =>
    obtain ⟨fs, v, hcall, -⟩ :
        ∃ fs v, createChain faults vol.toGeometry st.fs 0 = some (fs, v) ∧ _ :=
      createChain_spec h.coherent (.inl rfl)
    exact ⟨_, by rw [storeStep, hcall]; rfl⟩
  | stretch i =>
    have hmem := List.getElem_mem happlies
    obtain ⟨last, hlast⟩ := Option.ne_none_iff_exists'.mp
      (mt List.getLast?_eq_none_iff.mp (h.chain _ hmem).1)
    have hrange := (h.chain _ hmem).2.2 last (List.mem_of_getLast? hlast)
    obtain ⟨fs, v, hcall, -⟩ :
        ∃ fs v, createChain faults vol.toGeometry st.fs last = some (fs, v) ∧ _ :=
      createChain_spec h.coherent (.inr hrange)
    apply Option.isSome_iff_exists.mp
    simp [storeStep, List.getElem?_eq_getElem happlies, hlast, hcall]
  | remove i =>
    obtain ⟨first, ds, hds⟩ := List.exists_cons_of_ne_nil
      (h.chain _ (List.getElem_mem happlies)).1
    obtain ⟨fs, r, hcall, -⟩ := h.removed faults happlies hds
    apply Option.isSome_iff_exists.mp
    simp [storeStep, List.getElem?_eq_getElem happlies, hds, hcall]

/-- As long as no request fails, and however many chains are created, stretched and removed
in whatever order: each cluster is free or belongs to one chain, the chains are linked as
they were built, no cluster is lost, and the count of the free ones is right. The next call
returns. -/
theorem chains_sound (hfaults : ¬ Faulty faults) (hstart : Sound vol st)
    (hrun : Reaches (storeStep faults vol.toGeometry) anyStep st st') :
    Sound vol st' ∧ ∀ act : StoreAct, act.Applies st' →
      ∃ st'', storeStep faults vol.toGeometry st' act = some st'' := by
  have hsound : Sound vol st' :=
    hrun.invariant (Sound vol) hstart fun _ _ _ hs _ hstep => hs.step hfaults hstep
  exact ⟨hsound, fun _ happlies => hsound.returns faults happlies⟩

theorem blank_sound : Sound smallVolume ⟨blankFs, []⟩ where
  coherent := blankFs_coherent
  chain cs hcs := by cases hcs
  apart := List.nodup_nil
  free c hc2 hlt _ := by
    change c < 5 at hlt
    interval_cases c <;> decide
  counted := .inr rfl

/-- Two chains that grow in turn, and one of them is removed. -/
def mixedCalls : Option Store :=
  runInputs (storeStep (fun _ => none) smallVolume.toGeometry) anyStep
    [.create, .create, .stretch 0, .stretch 1, .remove 0] ⟨blankFs, []⟩

theorem chains_sound_mixed : ∃ st, mixedCalls = some st ∧ st.chains = [[3]] ∧
    st.fs.freeClust = 2 ∧ Sound smallVolume st := by
  have hend : mixedCalls.map (fun st => (st.chains, st.fs.freeClust)) = some ([[3]], 2) := by
    decide +kernel
  obtain ⟨st, hrun, hst⟩ := Option.map_eq_some_iff.mp hend
  obtain ⟨hchains, hfree⟩ := Prod.mk.inj hst
  exact ⟨st, hrun, hchains, hfree, (chains_sound (fun ⟨_, hne⟩ => hne rfl) blank_sound
    (Reaches.of_runInputs hrun)).1⟩

end PosixRtos.Fs
