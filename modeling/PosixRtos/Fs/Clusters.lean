import PosixRtos.Fs.FatTable

/-! Allocation of clusters. A chain is linked through the entries of its clusters; the entry
of a free cluster is 0. -/
namespace PosixRtos.Fs

open PosixRtos.Library.ByteMemory PosixRtos.Library.Overlay
open PosixRtos.Heap (word sub32)

/-- A free cluster count that is not known. -/
def unknownCount : Nat := 0xffffffff

/-- One more free cluster. -/
def countFree (s : FatFs) : FatFs :=
  if s.freeClust ≠ unknownCount then
    { s with freeClust := word (s.freeClust + 1), fsiFlag := s.fsiFlag ||| 1 } else s

section Functions

variable (faults : Faults) (g : Geometry)

/-- The loop of `remove_chain`; `none` is a loop that has not ended within the fuel. -/
def removeLoop : Nat → FatFs → Nat → Option (FatFs × FResult)
  | 0, _, _ => none
  | fuel + 1, s, clst =>
      if clst < g.nFatent then
        let (s, nxt) := getFat faults g s clst
        if nxt = 0 then some (s, .ok)
        else if nxt = 1 then some (s, .intErr)
        else if nxt = diskError then some (s, .diskErr)
        else
          let (s, res) := putFat faults g s clst 0
          if res ≠ .ok then some (s, res) else removeLoop fuel (countFree s) nxt
      else some (s, .ok)

def removeChain (s : FatFs) (clst : Nat) : Option (FatFs × FResult) :=
  if clst < 2 ∨ g.nFatent ≤ clst then some (s, .intErr)
  else removeLoop faults g (g.nFatent + 1) s clst

/-- The search of `create_chain` behind cluster `ncl`: `ok` is a free cluster, `error` a value
that is returned at once. -/
def searchFree (scl : Nat) : Nat → FatFs → Nat → Option (FatFs × Except Nat Nat)
  | 0, _, _ => none
  | fuel + 1, s, ncl =>
      let wrapped := g.nFatent ≤ word (ncl + 1)
      let ncl := if wrapped then 2 else word (ncl + 1)
      if wrapped ∧ scl < ncl then some (s, .error 0)
      else
        let (s, cs) := getFat faults g s ncl
        if cs = 0 then some (s, .ok ncl)
        else if cs = diskError ∨ cs = 1 then some (s, .error cs)
        else if ncl = scl then some (s, .error 0)
        else searchFree scl fuel s ncl

/-- Where `create_chain` starts to search. -/
def searchStart (s : FatFs) (clst : Nat) : FatFs × Except Nat Nat :=
  if clst = 0 then
    (s, .ok (if s.lastClust = 0 ∨ g.nFatent ≤ s.lastClust then 1 else s.lastClust))
  else
    let (s, cs) := getFat faults g s clst
    if cs < 2 then (s, .error 1)
    else if cs = diskError then (s, .error cs)
    else if cs < g.nFatent then (s, .error cs)
    else (s, .ok clst)

/-- Marks the new cluster as the last one and links it to the one before. -/
def linkCluster (s : FatFs) (clst ncl : Nat) : FatFs × Nat :=
  let (s, res) := putFat faults g s ncl 0x0fffffff
  let (s, res) := if res = .ok ∧ clst ≠ 0 then putFat faults g s clst ncl else (s, res)
  if res = .ok then
    let s := { s with lastClust := ncl }
    (if s.freeClust ≠ unknownCount then
      { s with freeClust := sub32 s.freeClust 1, fsiFlag := s.fsiFlag ||| 1 } else s, ncl)
  else (s, if res = .diskErr then diskError else 1)

def createChain (s : FatFs) (clst : Nat) : Option (FatFs × Nat) :=
  match searchStart faults g s clst with
  | (s, .error v) => some (s, v)
  | (s, .ok scl) =>
      match searchFree faults g scl (g.nFatent + 1) s scl with
      | none => none
      | some (s, .error v) => some (s, v)
      | some (s, .ok ncl) => some (linkCluster faults g s clst ncl)

end Functions

/-- The clusters in the order in which they are looked at: behind `scl` and round to it. -/
def searchOrder (n scl : Nat) : List Nat :=
  List.range' (scl + 1) (n - (scl + 1)) ++ List.range' 2 (scl - 1)

/-- Those that are left when the last one was `ncl`. -/
def searchRest (n scl ncl : Nat) : List Nat :=
  if scl ≤ ncl then List.range' (ncl + 1) (n - (ncl + 1)) ++ List.range' 2 (scl - 1)
  else List.range' (ncl + 1) (scl - ncl)

variable {faults : Faults} {vol : Volume} {s s' : FatFs} {scl ncl clst : Nat}

/-- The next cluster and what is left behind it. -/
theorem searchRest_cons {n : Nat} (hscl : scl < n) (hncl : ncl < n) (hone : 1 ≤ scl) {c : Nat}
    (hc : c = if n ≤ ncl + 1 then 2 else ncl + 1) (hgo : ¬ (n ≤ ncl + 1 ∧ scl < c)) :
    ∃ rest, searchRest n scl ncl = c :: rest ∧
      (if c = scl then rest = [] else rest = searchRest n scl c) := by
  unfold searchRest
  by_cases hwrap : n ≤ ncl + 1
  · rw [if_pos hwrap] at hc
    subst hc
    have hscl2 : 2 ≤ scl := by omega
    obtain ⟨m, rfl⟩ : ∃ m, scl = m + 2 := ⟨scl - 2, by omega⟩
    refine ⟨List.range' 3 m, ?_, ?_⟩
    · rw [if_pos (by omega), show n - (ncl + 1) = 0 by omega]
      rfl
    · split
      next heq => simp [show m = 0 by omega]
      next hne =>
        rw [if_neg (by omega)]
        rfl
  · rw [if_neg hwrap] at hc
    subst hc
    by_cases hbehind : scl ≤ ncl
    · refine ⟨List.range' (ncl + 2) (n - (ncl + 2)) ++ List.range' 2 (scl - 1), ?_, ?_⟩
      · rw [if_pos hbehind, show n - (ncl + 1) = n - (ncl + 2) + 1 by omega, List.range'_succ]
        rfl
      · rw [if_neg (by omega), if_pos (by omega)]
    · refine ⟨List.range' (ncl + 2) (scl - (ncl + 1)), ?_, ?_⟩
      · rw [if_neg hbehind, show scl - ncl = scl - (ncl + 1) + 1 by omega, List.range'_succ]
      · split
        next heq => simp [show scl - (ncl + 1) = 0 by omega]
        next hne => rw [if_neg (by omega)]

theorem searchRest_end {n : Nat} (hncl : ncl < n) (hscl : scl < n) (hwrap : n ≤ ncl + 1)
    (hone : scl < 2) : searchRest n scl ncl = [] := by
  unfold searchRest
  rw [if_pos (by omega), show n - (ncl + 1) = 0 by omega, show scl - 1 = 0 by omega]
  rfl

/-- The free cluster that comes first, if there is one. -/
def firstFree (vol : Volume) (s : FatFs) (clusters : List Nat) : Option Nat :=
  clusters.find? fun c => fatEntry vol.toGeometry s.view c = 0

/-- No entry is 1, which `get_fat` keeps for internal errors. -/
def NoOnes (vol : Volume) (s : FatFs) : Prop :=
  ∀ c, 2 ≤ c → c < vol.nFatent → fatEntry vol.toGeometry s.view c ≠ 1

theorem Kept.noOnes_iff (hkept : Kept vol.toGeometry s s') : NoOnes vol s' ↔ NoOnes vol s := by
  unfold NoOnes
  apply forall₃_congr
  intro c _ hlt
  rw [hkept.entry hlt]

theorem Kept.firstFree (hkept : Kept vol.toGeometry s s') {clusters : List Nat}
    (hclusters : ∀ c ∈ clusters, c < vol.nFatent) :
    firstFree vol s' clusters = firstFree vol s clusters := by
  unfold Fs.firstFree
  induction clusters with
  | nil => rfl
  | cons c rest ih =>
    rw [List.find?_cons, List.find?_cons, hkept.entry (hclusters c List.mem_cons_self),
      ih fun d hd => hclusters d (List.mem_cons_of_mem c hd)]

theorem mem_searchRest {n c : Nat} (hscl : scl < n) (hone : 1 ≤ ncl)
    (hc : c ∈ searchRest n scl ncl) : 2 ≤ c ∧ c < n := by
  unfold searchRest at hc
  split at hc
  · simp only [List.mem_append, List.mem_range'_1] at hc
    omega
  · simp only [List.mem_range'_1] at hc
    omega

/-- The search looks at the clusters in their order and returns the first that is free. -/
theorem searchFree_spec (hscl : scl < vol.nFatent) (hone : 1 ≤ scl) (fuel : Nat) (s : FatFs)
    (ncl : Nat) (hc : Coherent s) (hncl : ncl < vol.nFatent) (hone' : 1 ≤ ncl)
    (hfuel : (searchRest vol.nFatent scl ncl).length < fuel) :
    ∃ s' r, searchFree faults vol.toGeometry scl fuel s ncl = some (s', r) ∧
      Kept vol.toGeometry s s' ∧
      (r = .error diskError ∧ Faulty faults ∨ r = .error 1 ∧ ¬ NoOnes vol s ∨
        r = (firstFree vol s (searchRest vol.nFatent scl ncl)).elim (.error 0) .ok) := by
  induction fuel generalizing s ncl with
  | zero => omega
  | succ fuel ih =>
    have hsmall := vol.nFatent_lt
    have hword : word (ncl + 1) = ncl + 1 := Nat.mod_eq_of_lt (by omega)
    unfold searchFree
    simp only [hword]
    generalize hcand : (if vol.nFatent ≤ ncl + 1 then 2 else ncl + 1) = c
    split
    next hend =>
      refine ⟨s, _, rfl, .refl hc, .inr (.inr ?_)⟩
      rw [if_pos hend.1] at hcand
      rw [searchRest_end hncl hscl hend.1 (by omega)]
      rfl
    next hgo =>
      obtain ⟨rest, hrest, htail⟩ := searchRest_cons hscl hncl hone hcand.symm hgo
      have hrange := mem_searchRest hscl hone' (hrest ▸ List.mem_cons_self)
      generalize hget : getFat faults vol.toGeometry s c = got
      obtain ⟨s₁, cs⟩ := got
      obtain ⟨hkept, rfl | ⟨rfl, hfaulty⟩⟩ := getFat_spec hc hrange.1 hrange.2 hget
      · have hlt := fatEntry_lt vol.toGeometry s.view c
        dsimp only
        rw [hrest, firstFree, List.find?_cons]
        split
        next hfree => exact ⟨s₁, _, rfl, hkept, .inr (.inr (by simp [hfree]))⟩
        next hused =>
          simp only [hused, decide_false]
          split
          next herr =>
            have hentry : fatEntry vol.toGeometry s.view c = 1 := by
              unfold diskError at herr
              omega
            refine ⟨s₁, _, rfl, hkept, .inr (.inl ⟨by rw [hentry], ?_⟩)⟩
            exact fun hones => hones c hrange.1 hrange.2 hentry
          next =>
            split
            next hlast =>
              rw [if_pos hlast] at htail
              subst htail
              exact ⟨s₁, _, rfl, hkept, .inr (.inr rfl)⟩
            next hmore =>
              rw [if_neg hmore] at htail
              subst htail
              rw [hrest, List.length_cons] at hfuel
              obtain ⟨s₂, r, hsearch, hkept', hr⟩ := ih s₁ c hkept.coherent hrange.2 (by omega)
                (by omega)
              rw [hkept.firstFree fun d hd => (mem_searchRest hscl (by omega) hd).2,
                hkept.noOnes_iff] at hr
              exact ⟨s₂, r, hsearch, hkept.trans hkept', hr⟩
      · refine ⟨s₁, _, ?_, hkept, .inl ⟨rfl, hfaulty⟩⟩
        simp [diskError]

theorem mem_searchOrder {n c : Nat} (hscl : scl < n) (hone : 1 ≤ scl) :
    c ∈ searchOrder n scl ↔ 2 ≤ c ∧ c < n := by
  unfold searchOrder
  simp only [List.mem_append, List.mem_range'_1]
  omega

/-! One call of `create_chain`. -/

/-- Nothing but the FAT is changed. -/
structure FatOnly (g : Geometry) (s s' : FatFs) : Prop where
  coherent : Coherent s'
  outside : ∀ x, g.Counts x → ¬ g.FatArea x → s'.view x = s.view x

theorem Kept.fatOnly (hkept : Kept vol.toGeometry s s') : FatOnly vol.toGeometry s s' :=
  ⟨hkept.coherent, fun x hx _ => hkept.view x hx⟩

theorem Changed.fatOnly (hchanged : Changed vol.toGeometry clst s s') :
    FatOnly vol.toGeometry s s' := ⟨hchanged.coherent, hchanged.outside⟩

theorem FatOnly.trans {s'' : FatFs} (h : FatOnly vol.toGeometry s s')
    (h' : FatOnly vol.toGeometry s' s'') : FatOnly vol.toGeometry s s'' :=
  ⟨h'.coherent, fun x hx hfat => (h'.outside x hx hfat).trans (h.outside x hx hfat)⟩

/-- Of the FAT only the entries of free clusters and of the clusters `cs` are changed. -/
structure Limited (vol : Volume) (s s' : FatFs) (cs : List Nat) : Prop
    extends FatOnly vol.toGeometry s s' where
  others : ∀ c, 2 ≤ c → c < vol.nFatent → c ∉ cs → fatEntry vol.toGeometry s.view c ≠ 0 →
    fatEntry vol.toGeometry s'.view c = fatEntry vol.toGeometry s.view c

theorem Kept.limited (hkept : Kept vol.toGeometry s s') (cs : List Nat) :
    Limited vol s s' cs :=
  ⟨hkept.fatOnly, fun _ _ hlt _ _ => hkept.entry hlt⟩

theorem Changed.limited {cs : List Nat} (hchanged : Changed vol.toGeometry clst s s')
    (hclst : clst ∈ cs ∨ fatEntry vol.toGeometry s.view clst = 0) : Limited vol s s' cs := by
  refine ⟨hchanged.fatOnly, fun c _ hlt hmem hused => hchanged.others c hlt ?_⟩
  rintro rfl
  rcases hclst with hin | hfree
  · exact hmem hin
  · exact hused hfree

theorem Limited.mono {cs cs' : List Nat} (h : Limited vol s s' cs) (hsub : cs ⊆ cs') :
    Limited vol s s' cs' :=
  ⟨h.toFatOnly, fun c hc hlt hmem => h.others c hc hlt fun hin => hmem (hsub hin)⟩

theorem Limited.trans {s'' : FatFs} {cs : List Nat} (h : Limited vol s s' cs)
    (h' : Limited vol s' s'' cs) : Limited vol s s'' cs := by
  refine ⟨h.toFatOnly.trans h'.toFatOnly, fun c hc hlt hmem hused => ?_⟩
  have hsame := h.others c hc hlt hmem hused
  rw [h'.others c hc hlt hmem (by rwa [hsame]), hsame]

/-- The free cluster `ncl` has become the last of the chain that ended in `clst`, or a
chain of its own if `clst` is 0. -/
structure Allocated (vol : Volume) (s s' : FatFs) (clst ncl : Nat) : Prop where
  fatOnly : FatOnly vol.toGeometry s s'
  range : 2 ≤ ncl ∧ ncl < vol.nFatent
  free : fatEntry vol.toGeometry s.view ncl = 0
  entries : ∀ c, 2 ≤ c → c < vol.nFatent → fatEntry vol.toGeometry s'.view c =
    if c = ncl then lastLink vol.fsType else if c = clst then ncl
    else fatEntry vol.toGeometry s.view c
  lastClust : s'.lastClust = ncl
  freeClust : s'.freeClust =
    if s.freeClust = unknownCount then unknownCount else sub32 s.freeClust 1

theorem Allocated.limited (h : Allocated vol s s' clst ncl) : Limited vol s s' [clst] := by
  refine ⟨h.fatOnly, fun c hc hlt hmem hused => ?_⟩
  rw [h.entries c hc hlt, if_neg, if_neg (by simpa using hmem)]
  rintro rfl
  exact hused h.free

theorem lastLink_stored (t : FatType) : 0x0fffffff % (lastLink t + 1) = lastLink t := by
  cases t <;> rfl

/-- A cluster number is stored as it is. -/
theorem cluster_stored (hlt : ncl < vol.nFatent) : ncl % (lastLink vol.fsType + 1) = ncl := by
  apply Nat.mod_eq_of_lt
  have hends := vol.ends_known
  omega

theorem linkCluster_spec (hc : Coherent s) (hrange : 2 ≤ ncl ∧ ncl < vol.nFatent)
    (hfree : fatEntry vol.toGeometry s.view ncl = 0)
    (hclst : clst = 0 ∨ (2 ≤ clst ∧ clst < vol.nFatent) ∧ clst ≠ ncl) {v : Nat}
    (hcall : linkCluster faults vol.toGeometry s clst ncl = (s', v)) :
    Limited vol s s' [clst] ∧
      (v = diskError ∧ Faulty faults ∨ v = ncl ∧ Allocated vol s s' clst ncl) := by
  have hsmall := vol.nFatent_lt
  unfold linkCluster at hcall
  obtain ⟨s₁, r₁, hput⟩ : ∃ s₁ r₁, putFat faults vol.toGeometry s ncl 0x0fffffff = (s₁, r₁) :=
    ⟨_, _, rfl⟩
  simp only [hput] at hcall
  obtain ⟨hchanged, ⟨rfl, hlast⟩ | ⟨rfl, hfaulty, -⟩⟩ :=
    putFat_spec hc hrange.1 hrange.2 (by decide) hput
  · rw [lastLink_stored] at hlast
    obtain ⟨s₂, r₂, hput'⟩ : ∃ s₂ r₂, (if clst ≠ 0 then
      putFat faults vol.toGeometry s₁ clst ncl else (s₁, .ok)) = (s₂, r₂) := ⟨_, _, rfl⟩
    simp only [true_and, hput'] at hcall
    -- behind both steps: the entries, and what has not changed
    have hlinked : Limited vol s s₂ [clst] ∧ s₂.freeClust = s.freeClust ∧
        (r₂ = .diskErr ∧ Faulty faults ∨ r₂ = .ok ∧ ∀ c, 2 ≤ c → c < vol.nFatent →
          fatEntry vol.toGeometry s₂.view c = if c = ncl then lastLink vol.fsType
            else if c = clst then ncl else fatEntry vol.toGeometry s.view c) := by
      have hentries : ∀ c, 2 ≤ c → c < vol.nFatent → fatEntry vol.toGeometry s₁.view c =
          if c = ncl then lastLink vol.fsType else fatEntry vol.toGeometry s.view c := by
        intro c hc2 hlt
        split
        next heq => rw [heq, hlast]
        next hne => exact hchanged.others c hlt hne
      rcases hclst with rfl | ⟨hclst, hne⟩
      · rw [if_neg (by simp)] at hput'
        cases hput'
        refine ⟨hchanged.limited (.inr hfree), hchanged.freeClust, .inr ⟨rfl, ?_⟩⟩
        intro c hc2 hlt
        rw [hentries c hc2 hlt, if_neg (show ¬ c = 0 by omega)]
      · rw [if_pos (by omega)] at hput'
        obtain ⟨hchanged', hr₂⟩ := putFat_spec hchanged.coherent hclst.1 hclst.2 (by omega) hput'
        refine ⟨(hchanged.limited (.inr hfree)).trans
          (hchanged'.limited (.inl List.mem_cons_self)),
          hchanged'.freeClust.trans hchanged.freeClust, ?_⟩
        rcases hr₂ with ⟨rfl, hval⟩ | ⟨rfl, hfaulty, -⟩
        · refine .inr ⟨rfl, ?_⟩
          intro c hc2 hlt
          by_cases heq : c = clst
          · subst heq
            rw [if_neg hne, if_pos rfl, hval, cluster_stored hrange.2]
          · rw [hchanged'.others c hlt heq, hentries c hc2 hlt, if_neg heq]
        · exact .inl ⟨rfl, hfaulty⟩
    obtain ⟨hfat, hcount, ⟨rfl, hfaulty⟩ | ⟨rfl, hentries⟩⟩ := hlinked
    · cases hcall
      exact ⟨hfat, .inl ⟨rfl, hfaulty⟩⟩
    · rw [if_pos rfl, Prod.mk.injEq] at hcall
      obtain ⟨rfl, rfl⟩ := hcall
      have hsame : ∀ (freeClust : Nat) (fsiFlag : BitVec 8), Limited vol s
          { s₂ with lastClust := ncl, freeClust := freeClust, fsiFlag := fsiFlag } [clst] :=
        fun _ _ => ⟨⟨⟨hfat.coherent.clean, hfat.coherent.valid⟩, hfat.outside⟩, hfat.others⟩
      split
      next hknown =>
        refine ⟨hsame _ _, .inr ⟨rfl, (hsame _ _).toFatOnly, hrange, hfree, hentries, rfl, ?_⟩⟩
        dsimp only at hknown ⊢
        rw [hcount] at hknown ⊢
        rw [if_neg hknown]
      next hunknown =>
        refine ⟨hsame _ _, .inr ⟨rfl, (hsame _ _).toFatOnly, hrange, hfree, hentries, rfl, ?_⟩⟩
        dsimp only at hunknown ⊢
        rw [hcount] at hunknown ⊢
        rw [if_pos (by simpa using hunknown)]
        simpa using hunknown
  · simp at hcall
    obtain ⟨rfl, rfl⟩ := hcall
    exact ⟨hchanged.limited (.inr hfree), .inl ⟨rfl, hfaulty⟩⟩

/-- The cluster behind which the search starts. -/
def searchFrom (vol : Volume) (s : FatFs) (clst : Nat) : Nat :=
  if clst = 0 then (if s.lastClust = 0 ∨ vol.nFatent ≤ s.lastClust then 1 else s.lastClust)
  else clst

/-- What `create_chain` does: a request has failed; the cluster to stretch is free, or some entry
is 1; it has a successor already; no cluster is free; or the first free cluster has been
taken. -/
inductive Created (faults : Faults) (vol : Volume) (s : FatFs) (clst : Nat) :
    FatFs → Nat → Prop where
  | failed {s' : FatFs} : Faulty faults → Limited vol s s' [clst] →
      Created faults vol s clst s' diskError
  | broken {s' : FatFs} :
      (clst ≠ 0 ∧ fatEntry vol.toGeometry s.view clst = 0 ∨ ¬ NoOnes vol s) →
      Kept vol.toGeometry s s' → Created faults vol s clst s' 1
  | linked {s' : FatFs} : clst ≠ 0 → 2 ≤ fatEntry vol.toGeometry s.view clst →
      fatEntry vol.toGeometry s.view clst < vol.nFatent → Kept vol.toGeometry s s' →
      Created faults vol s clst s' (fatEntry vol.toGeometry s.view clst)
  | full {s' : FatFs} : (clst = 0 ∨ vol.nFatent ≤ fatEntry vol.toGeometry s.view clst) →
      (∀ c, 2 ≤ c → c < vol.nFatent → fatEntry vol.toGeometry s.view c ≠ 0) →
      Kept vol.toGeometry s s' → Created faults vol s clst s' 0
  | new {s' : FatFs} {ncl : Nat} :
      (clst = 0 ∨ vol.nFatent ≤ fatEntry vol.toGeometry s.view clst) →
      firstFree vol s (searchOrder vol.nFatent (searchFrom vol s clst)) = some ncl →
      Allocated vol s s' clst ncl → Created faults vol s clst s' ncl

theorem Kept.allocated {s'' : FatFs} (hkept : Kept vol.toGeometry s s')
    (halloc : Allocated vol s' s'' clst ncl) : Allocated vol s s'' clst ncl where
  fatOnly := hkept.fatOnly.trans halloc.fatOnly
  range := halloc.range
  free := by rw [← hkept.entry halloc.range.2, halloc.free]
  entries c hc hlt := by rw [halloc.entries c hc hlt, hkept.entry hlt]
  lastClust := halloc.lastClust
  freeClust := by rw [halloc.freeClust, hkept.freeClust]

theorem searchStart_spec (hc : Coherent s)
    (hclst : clst = 0 ∨ 2 ≤ clst ∧ clst < vol.nFatent) {r : Except Nat Nat}
    (hcall : searchStart faults vol.toGeometry s clst = (s', r)) :
    Kept vol.toGeometry s s' ∧ ((∃ v, r = .error v ∧ Created faults vol s clst s' v) ∨
      r = .ok (searchFrom vol s clst) ∧
        (clst = 0 ∨ vol.nFatent ≤ fatEntry vol.toGeometry s.view clst)) := by
  unfold searchStart at hcall
  unfold searchFrom
  by_cases hzero : clst = 0
  · rw [if_pos hzero] at hcall ⊢
    cases hcall
    exact ⟨.refl hc, .inr ⟨rfl, .inl hzero⟩⟩
  · rw [if_neg hzero] at hcall ⊢
    have hrange := hclst.resolve_left hzero
    generalize hget : getFat faults vol.toGeometry s clst = got at hcall
    obtain ⟨s₁, cs⟩ := got
    obtain ⟨hkept, rfl | ⟨rfl, hfaulty⟩⟩ := getFat_spec hc hrange.1 hrange.2 hget
    · have hlt := fatEntry_lt vol.toGeometry s.view clst
      dsimp only at hcall
      split at hcall
      next hsmall =>
        cases hcall
        refine ⟨hkept, .inl ⟨1, rfl, .broken ?_ hkept⟩⟩
        by_cases hfree : fatEntry vol.toGeometry s.view clst = 0
        · exact .inl ⟨hzero, hfree⟩
        · exact .inr fun hones => hones clst hrange.1 hrange.2 (by omega)
      next hlarge =>
        rw [if_neg (by unfold diskError; omega)] at hcall
        split at hcall
        next hlink =>
          cases hcall
          exact ⟨hkept, .inl ⟨_, rfl, .linked hzero (by omega) hlink hkept⟩⟩
        next hend =>
          cases hcall
          exact ⟨hkept, .inr ⟨rfl, .inr (by omega)⟩⟩
    · dsimp only at hcall
      rw [if_neg (by decide), if_pos rfl] at hcall
      cases hcall
      exact ⟨hkept, .inl ⟨_, rfl, .failed hfaulty (hkept.limited _)⟩⟩

theorem searchFrom_range (hclst : clst = 0 ∨ 2 ≤ clst ∧ clst < vol.nFatent) :
    1 ≤ searchFrom vol s clst ∧ searchFrom vol s clst < vol.nFatent := by
  have hclusters := vol.clusters
  unfold searchFrom
  split
  · split <;> omega
  · omega

/-- `create_chain` always returns, and does one of these things. -/
theorem createChain_spec (hc : Coherent s)
    (hclst : clst = 0 ∨ 2 ≤ clst ∧ clst < vol.nFatent) :
    ∃ s' v, createChain faults vol.toGeometry s clst = some (s', v) ∧
      Created faults vol s clst s' v := by
  obtain ⟨hone, hscl⟩ : 1 ≤ searchFrom vol s clst ∧ searchFrom vol s clst < vol.nFatent :=
    searchFrom_range hclst
  unfold createChain
  generalize hstart : searchStart faults vol.toGeometry s clst = started
  obtain ⟨s₁, r₁⟩ := started
  obtain ⟨hkept, ⟨v, rfl, hcreated⟩ | ⟨rfl, hend⟩⟩ := searchStart_spec hc hclst hstart
  · exact ⟨s₁, v, rfl, hcreated⟩
  · have horder : searchRest vol.nFatent (searchFrom vol s clst) (searchFrom vol s clst) =
        searchOrder vol.nFatent (searchFrom vol s clst) := if_pos le_rfl
    obtain ⟨s₂, r₂, hsearch, hkept₂, hr₂⟩ := searchFree_spec hscl hone (vol.nFatent + 1) s₁ _
      hkept.coherent hscl hone (by
        rw [horder, searchOrder]
        simp only [List.length_append, List.length_range']
        omega)
    rw [horder, hkept.firstFree fun c hcm => ((mem_searchOrder hscl hone).mp hcm).2,
      hkept.noOnes_iff] at hr₂
    have hkept' := hkept.trans hkept₂
    dsimp only
    rw [hsearch]
    rcases hr₂ with ⟨rfl, hfaulty⟩ | ⟨rfl, hones⟩ | rfl
    · exact ⟨s₂, _, rfl, .failed hfaulty (hkept'.limited _)⟩
    · exact ⟨s₂, _, rfl, .broken (.inr hones) hkept'⟩
    · cases hfirst : firstFree vol s (searchOrder vol.nFatent (searchFrom vol s clst)) with
      | none =>
        refine ⟨s₂, 0, rfl, .full hend ?_ hkept'⟩
        intro c hc2 hlt hfree
        have hnone := List.find?_eq_none.mp hfirst c ((mem_searchOrder hscl hone).mpr ⟨hc2, hlt⟩)
        exact hnone (by simpa using hfree)
      | some ncl =>
        have hrange := (mem_searchOrder hscl hone).mp (List.mem_of_find?_eq_some hfirst)
        have hfree : fatEntry vol.toGeometry s.view ncl = 0 := by
          simpa using List.find?_some hfirst
        have hne : clst = 0 ∨ (2 ≤ clst ∧ clst < vol.nFatent) ∧ clst ≠ ncl := by
          rcases hclst with hzero | hrange'
          · exact .inl hzero
          · refine .inr ⟨hrange', ?_⟩
            rintro rfl
            omega
        obtain ⟨s₃, v, hlink⟩ : ∃ s₃ v, linkCluster faults vol.toGeometry s₂ clst ncl = (s₃, v) :=
          ⟨_, _, rfl⟩
        refine ⟨s₃, v, by simp [hlink], ?_⟩
        obtain ⟨hfat, ⟨rfl, hfaulty⟩ | ⟨rfl, halloc⟩⟩ := linkCluster_spec hkept'.coherent hrange
          (by rw [hkept'.entry hrange.2, hfree]) hne hlink
        · exact .failed hfaulty ((hkept'.limited _).trans hfat)
        · exact .new hend hfirst (hkept'.allocated halloc)

theorem createChain_cases (hc : Coherent s)
    (hclst : clst = 0 ∨ 2 ≤ clst ∧ clst < vol.nFatent) {v : Nat}
    (hcall : createChain faults vol.toGeometry s clst = some (s', v)) :
    Created faults vol s clst s' v := by
  obtain ⟨s₁, v₁, hcreate, hcreated⟩ : ∃ s₁ v₁,
    createChain faults vol.toGeometry s clst = some (s₁, v₁) ∧ Created faults vol s clst s₁ v₁ :=
    createChain_spec hc hclst
  obtain ⟨rfl, rfl⟩ := Prod.mk.inj (Option.some.inj (hcall.symm.trans hcreate))
  exact hcreated

end PosixRtos.Fs
