import Mathlib.Data.List.Nodup
import PosixRtos.Unistd.Objects

/-! When an object is found by its path and by nothing else. A class is found
anywhere in a path and the path's first characters are taken off unseen; a name is
cut when it is stored and not when it is looked for. -/
namespace PosixRtos.Unistd

open PosixRtos.Library.ByteMemory PosixRtos.Libc

def Made.path (m : Made) : List Byte := stdobjName m.type ++ m.name.text

/-- `zalloc` returns a block that is not in use, and no name is given twice in a class. -/
structure Distinct (made : List Made) : Prop where
  handles : (made.map fun m => m.stdobj.handle).Nodup
  names : (made.map fun m => (m.type, m.name.text)).Nodup

/-- Each object is selected exactly by its path, and 0 is returned where no object
has the path. -/
structure FoundByPath (made : List Made) (q : List Byte) (outcome : Outcome) : Prop where
  selects : ∀ m ∈ made,
    outcome.selected.map Stdobj.handle = some m.stdobj.handle ↔ q = m.path
  absent : (∀ m ∈ made, q ≠ m.path) → outcome.result = 0

/-- The path of an object has its class as the first one that occurs in it, and the
object's name is short enough. The path that a cut name has is the one of an older
object. A class that does not begin the path leads to no object. -/
structure Unambiguous (made : List Made) (q : List Byte) : Prop where
  whole : ∀ m ∈ made, q = m.path →
    firstType q = some m.type ∧ m.name.text.length < stdobjNameMax
  uncut : ∀ older m newer, made = older ++ m :: newer → stdobjNameMax ≤ m.name.text.length →
    firstType q = some m.type → q = stdobjName m.type ++ m.kept →
      ∃ m' ∈ older, m'.type = m.type ∧ m'.name.text = m.kept
  anchored : ∀ m ∈ made, firstType q = some m.type → ¬ stdobjName m.type <+: q →
    m.kept ≠ q.drop (stdobjName m.type).length

variable {made older newer : List Made} {m m' : Made} {q : List Byte}

/-- No class begins like another one. -/
theorem stdobjName_append_inj {type type' : StdobjType} {s s' : List Byte}
    (h : stdobjName type ++ s = stdobjName type' ++ s') : type = type' ∧ s = s' := by
  cases type <;> cases type' <;> simp_all [stdobjName, text, ascii]

theorem Distinct.of_handle (h : Distinct made) (hm : m ∈ made) (hm' : m' ∈ made)
    (hhandle : m.stdobj.handle = m'.stdobj.handle) : m = m' :=
  List.inj_on_of_nodup_map h.handles hm hm' hhandle

theorem Distinct.of_name (h : Distinct made) (hm : m ∈ made) (hm' : m' ∈ made)
    (htype : m.type = m'.type) (hname : m.name.text = m'.name.text) : m = m' :=
  List.inj_on_of_nodup_map h.names hm hm' (Prod.ext htype hname)

theorem Distinct.notMem_older (h : Distinct (older ++ m :: newer)) : m ∉ older := by
  intro hm
  have hnodup := h.handles
  rw [List.map_append, List.map_cons] at hnodup
  exact (List.disjoint_of_nodup_append hnodup) (List.mem_map_of_mem hm) List.mem_cons_self

theorem Made.kept_of_short (h : m.name.text.length < stdobjNameMax) : m.kept = m.name.text :=
  List.take_of_length_le (Nat.le_sub_one_of_lt h)

theorem Made.kept_length (m : Made) : m.kept.length < stdobjNameMax := by
  rw [Made.kept, List.length_take]
  exact (min_le_left _ _).trans_lt (by decide)

/-! The search. -/

theorem lookup_append (made made' : List Made) (q : List Byte) :
    lookup (made ++ made') q = (lookup made q).or (lookup made' q) := by
  unfold lookup
  cases firstType q with
  | none => rfl
  | some type =>
    simp only [Option.bind_eq_bind, Option.bind_some, List.filter_append, List.find?_append]

theorem lookup_eq_some (h : lookup made q = some m) :
    m ∈ made ∧ firstType q = some m.type ∧ m.kept = q.drop (stdobjName m.type).length := by
  obtain ⟨type, htype, hfound⟩ := Option.bind_eq_some_iff.mp h
  have hmem := List.mem_filter.mp (List.mem_of_find?_eq_some hfound)
  have hclass : m.type = type := by simpa using hmem.2
  subst hclass
  exact ⟨hmem.1, htype, by simpa using List.find?_some hfound⟩

theorem lookup_of_mem (hm : m ∈ made) (htype : firstType q = some m.type)
    (hkept : m.kept = q.drop (stdobjName m.type).length) :
    ∃ m', lookup made q = some m' := by
  rw [← Option.isSome_iff_exists, lookup, htype, Option.bind_eq_bind, Option.bind_some,
    List.find?_isSome]
  exact ⟨m, List.mem_filter.mpr ⟨hm, by simp⟩, by simpa using hkept⟩

/-- The path that the part of a name which is kept has. -/
theorem drop_path (hq : q = stdobjName m.type ++ m.kept) :
    m.kept = q.drop (stdobjName m.type).length := by
  rw [hq, List.drop_left]

/-- An object with a cut name is not the one that is found. -/
theorem Unambiguous.short (h : Unambiguous made q) (hdistinct : Distinct made)
    (hfound : lookup made q = some m) : m.name.text.length < stdobjNameMax := by
  by_contra hlong
  obtain ⟨hm, htype, hkept⟩ := lookup_eq_some hfound
  have hstart : stdobjName m.type <+: q := by
    by_contra hstart
    exact h.anchored m hm htype hstart hkept
  have hq : q = stdobjName m.type ++ m.kept := by
    rw [hkept]
    exact List.prefix_iff_eq_append.mp hstart |>.symm
  obtain ⟨older, newer, hsplit⟩ := List.append_of_mem hm
  obtain ⟨m', hm', htype', hname⟩ := h.uncut older m newer hsplit (not_lt.mp hlong) htype hq
  have hkept' : m'.kept = q.drop (stdobjName m'.type).length := by
    rw [Made.kept, hname, htype', ← hkept]
    exact List.take_of_length_le (Nat.le_sub_one_of_lt m.kept_length)
  obtain ⟨m'', hfirst⟩ := lookup_of_mem hm' (htype'.symm ▸ htype) hkept'
  rw [hsplit, lookup_append, hfirst, Option.some_or] at hfound
  cases hfound
  rw [hsplit] at hdistinct
  exact hdistinct.notMem_older (lookup_eq_some hfirst).1

theorem Unambiguous.path_of_lookup (h : Unambiguous made q) (hdistinct : Distinct made)
    (hfound : lookup made q = some m) : q = m.path := by
  obtain ⟨hm, htype, hkept⟩ := lookup_eq_some hfound
  rw [Made.kept_of_short (h.short hdistinct hfound)] at hkept
  have hstart : stdobjName m.type <+: q := by
    by_contra hstart
    apply h.anchored m hm htype hstart
    rw [Made.kept_of_short (h.short hdistinct hfound), hkept]
  rw [Made.path, hkept]
  exact (List.prefix_iff_eq_append.mp hstart).symm

theorem Unambiguous.lookup_of_path (h : Unambiguous made q) (hdistinct : Distinct made)
    (hm : m ∈ made) (hq : q = m.path) : lookup made q = some m := by
  obtain ⟨htype, hshort⟩ := h.whole m hm hq
  have hkept : m.kept = q.drop (stdobjName m.type).length :=
    drop_path (by rw [Made.kept_of_short hshort]; exact hq)
  obtain ⟨m', hfound⟩ := lookup_of_mem hm htype hkept
  have hpath : m'.path = m.path := (h.path_of_lookup hdistinct hfound).symm.trans hq
  obtain ⟨hclass, hname⟩ := stdobjName_append_inj hpath
  rw [hfound, hdistinct.of_name (lookup_eq_some hfound).1 hm hclass hname]

/-- When a search that selects by path tells objects apart. -/
theorem unambiguous_of_lookup
    (hlookup : ∀ m ∈ made, lookup made q = some m ↔ q = m.path) : Unambiguous made q where
  whole m hm hq := by
    obtain ⟨-, htype, hkept⟩ := lookup_eq_some ((hlookup m hm).mpr hq)
    refine ⟨htype, ?_⟩
    have hname : m.kept = m.name.text := by
      rw [hkept, hq, Made.path, List.drop_left]
    rw [← hname]
    exact m.kept_length
  uncut older m newer hsplit hlong htype hq := by
    have hm : m ∈ made := hsplit ▸ List.mem_append_right older List.mem_cons_self
    have hne : q ≠ m.path := by
      intro hpath
      have hname := (stdobjName_append_inj (hq.symm.trans hpath)).2
      have hshort := m.kept_length
      rw [hname] at hshort
      omega
    cases hfirst : lookup older q with
    | none =>
      -- nothing is found before it, so the cut name is
      refine absurd ((hlookup m hm).mp ?_) hne
      obtain ⟨m', hfound⟩ := lookup_of_mem (List.mem_singleton_self m) htype (drop_path hq)
      rw [hsplit, lookup_append, hfirst, Option.none_or, ← List.singleton_append, lookup_append,
        hfound, Option.some_or, List.mem_singleton.mp (lookup_eq_some hfound).1]
    | some m' =>
      have hm' := (lookup_eq_some hfirst).1
      have hfound : lookup made q = some m' := by
        rw [hsplit, lookup_append, hfirst, Option.some_or]
      have hpath := (hlookup m' (hsplit ▸ List.mem_append_left _ hm')).mp hfound
      obtain ⟨hclass, hname⟩ := stdobjName_append_inj (hpath.symm.trans hq)
      exact ⟨m', hm', hclass, hname⟩
  anchored m hm htype hstart hkept := by
    obtain ⟨m', hfound⟩ := lookup_of_mem hm htype hkept
    obtain ⟨hm', htype', -⟩ := lookup_eq_some hfound
    have hclass : m'.type = m.type := Option.some.inj (htype'.symm.trans htype)
    have hpath := (hlookup m' hm').mp hfound
    apply hstart
    rw [hpath, ← hclass]
    exact List.prefix_append _ _

/-- What the outcome says about the search. -/
theorem foundByPath_iff {outcome : Outcome} (hdistinct : Distinct made)
    (hselected : outcome.selected = (lookup made q).map Made.stdobj)
    (habsent : outcome.selected = none → outcome.result = 0) :
    FoundByPath made q outcome ↔ ∀ m ∈ made, lookup made q = some m ↔ q = m.path := by
  have hhandle : ∀ m ∈ made, outcome.selected.map Stdobj.handle = some m.stdobj.handle ↔
      lookup made q = some m := by
    intro m hm
    rw [hselected, Option.map_map, Option.map_eq_some_iff]
    constructor
    · rintro ⟨m', hfound, hsame⟩
      rw [hfound, hdistinct.of_handle (lookup_eq_some hfound).1 hm hsame]
    · exact fun hfound => ⟨m, hfound, rfl⟩
  constructor
  · intro h m hm
    rw [← hhandle m hm, h.selects m hm]
  · intro h
    refine ⟨fun m hm => (hhandle m hm).trans (h m hm), fun hnone => habsent ?_⟩
    rw [hselected, Option.map_eq_none_iff, Option.eq_none_iff_forall_ne_some]
    intro m hfound
    have hm := (lookup_eq_some hfound).1
    exact hnone m hm ((h m hm).mp hfound)

/-- `access` selects objects exactly by their paths where the path asked for is not
ambiguous. -/
theorem access_finds_iff (flag : Nat → Int) (calls : List Creation)
    (hdistinct : Distinct (calls.filterMap Creation.made)) (hq : (0 : Byte) ∉ q) :
    (∀ opens rest mode, ∃ reg outcome,
      access (creates flag calls) opens (some (q ++ 0 :: rest)) mode = some (reg, outcome) ∧
        FoundByPath (calls.filterMap Creation.made) q outcome) ↔
      Unambiguous (calls.filterMap Creation.made) q := by
  constructor
  · intro h
    obtain ⟨reg, outcome, haccess, hfound⟩ := h (fun _ => none) [] 0
    obtain ⟨reg', outcome', haccess', hselected, habsent⟩ :=
      access_eq flag calls (fun _ => none) hq [] 0
    rw [haccess] at haccess'
    cases haccess'
    exact unambiguous_of_lookup ((foundByPath_iff hdistinct hselected habsent).mp hfound)
  · intro h opens rest mode
    obtain ⟨reg, outcome, haccess, hselected, habsent⟩ := access_eq flag calls opens hq rest mode
    refine ⟨reg, outcome, haccess, (foundByPath_iff hdistinct hselected habsent).mpr ?_⟩
    intro m hm
    exact ⟨h.path_of_lookup hdistinct, h.lookup_of_path hdistinct hm⟩

/-- Two devices, a socket and a file system, two of them with the same name, and a call
that gets no block. -/
def boardObjects : List Creation :=
  [⟨0, ⟨text "uart1", by decide, fun _ => 0⟩, 1, some 0x20000000⟩,
    ⟨1, ⟨text "lan", by decide, fun _ => 0⟩, 2, some 0x20000020⟩,
    ⟨2, ⟨text "uart1", by decide, fun _ => 0⟩, 3, some 0x20000040⟩,
    ⟨0, ⟨text "uart2", by decide, fun _ => 0⟩, 4, none⟩,
    ⟨0, ⟨text "led0", by decide, fun _ => 0⟩, 5, some 0x20000060⟩]

theorem uart_is_found :
    Unambiguous (boardObjects.filterMap Creation.made) (text "/dev/uart1") ∧
    ∀ opens rest mode, ∃ reg outcome, access (creates (fun _ => 0) boardObjects) opens
        (some (text "/dev/uart1" ++ 0 :: rest)) mode = some (reg, outcome) ∧
      FoundByPath (boardObjects.filterMap Creation.made) (text "/dev/uart1") outcome := by
  have hdistinct : Distinct (boardObjects.filterMap Creation.made) :=
    ⟨by decide +kernel, by decide +kernel⟩
  have hshort : ∀ m ∈ boardObjects.filterMap Creation.made,
      m.name.text.length < stdobjNameMax := by decide +kernel
  have hwhole : ∀ m ∈ boardObjects.filterMap Creation.made, text "/dev/uart1" = m.path →
      firstType (text "/dev/uart1") = some m.type := by decide +kernel
  have hstart : ∀ m ∈ boardObjects.filterMap Creation.made,
      firstType (text "/dev/uart1") = some m.type → stdobjName m.type <+: text "/dev/uart1" := by
    decide +kernel
  have hplain : Unambiguous (boardObjects.filterMap Creation.made) (text "/dev/uart1") := by
    refine ⟨fun m hm hpath => ⟨hwhole m hm hpath, hshort m hm⟩, ?_, ?_⟩
    · intro older m newer hsplit hlong
      have hm := hsplit ▸ List.mem_append_right older (List.mem_cons_self (a := m) (l := newer))
      exact absurd (hshort m hm) (not_lt.mpr hlong)
    · intro m hm hfirst hnot
      exact absurd (hstart m hm hfirst) hnot
  exact ⟨hplain, (access_finds_iff _ _ hdistinct (by decide)).mpr hplain⟩

/-- A name that holds the beginning of another class. -/
def nested : Creation := ⟨2, ⟨text "a/dev/b", by decide, fun _ => 0⟩, 1, some 0x20000000⟩

/-- A name of twelve characters. -/
def sensor : Creation := ⟨0, ⟨text "temperature1", by decide, fun _ => 0⟩, 1, some 0x20000000⟩

/-- The first is not found by its path, and the second is found by a shorter one. -/
theorem nested_and_cut_paths_fail :
    (∃ reg outcome, access (creates (fun _ => 0) [nested]) (fun _ => none)
        (some (text "/fd/a/dev/b" ++ [0])) 0 = some (reg, outcome) ∧
      ¬ FoundByPath ([nested].filterMap Creation.made) (text "/fd/a/dev/b") outcome) ∧
    ∃ reg outcome, access (creates (fun _ => 0) [sensor]) (fun _ => none)
        (some (text "/dev/temperature" ++ [0])) 0 = some (reg, outcome) ∧
      ¬ FoundByPath ([sensor].filterMap Creation.made) (text "/dev/temperature") outcome := by
  constructor
  · obtain ⟨reg, outcome, haccess, hselected, -⟩ :=
      access_eq (q := text "/fd/a/dev/b") (fun _ => 0) [nested] (fun _ => none) (by decide) [] 0
    refine ⟨reg, outcome, haccess, fun hfound => ?_⟩
    have hselects := hfound.selects _ (List.mem_singleton_self _)
    rw [hselected] at hselects
    exact absurd (hselects.mpr (by decide)) (by decide +kernel)
  · obtain ⟨reg, outcome, haccess, hselected, -⟩ :=
      access_eq (q := text "/dev/temperature") (fun _ => 0) [sensor] (fun _ => none) (by decide)
        [] 0
    refine ⟨reg, outcome, haccess, fun hfound => ?_⟩
    have hselects := hfound.selects _ (List.mem_singleton_self _)
    rw [hselected] at hselects
    exact absurd (hselects.mp (by decide +kernel)) (by decide)

end PosixRtos.Unistd
