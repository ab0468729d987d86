import PosixRtos.Libc.Strings

/-! The comparisons with a limit, and the search that is built on one of them.
`strncmp` compares one character more than it is told to; `memcmp` decrements its
counter before it looks at it. -/
namespace PosixRtos.Libc

open PosixRtos.Library.ByteMemory

/-- The loop of `memcmp`, entered with the counter that `--count` has left. -/
def memcmpLoop (s1 s2 : List Byte) : Nat → Option Int
  | 0 => difference s1 s2
  | count + 1 =>
      match s1, s2 with
      | a :: s1', b :: s2' => if a = b then memcmpLoop s1' s2' count else difference s1 s2
      | _, _ => none
termination_by structural count => count

/-- `memcmp`; the counter is an `unsigned int`. -/
def memcmp (s1 s2 : List Byte) (count : Nat) : Option Int :=
  memcmpLoop s1 s2 ((count + (2 ^ 32 - 1)) % 2 ^ 32)

/-- What a comparison of `count` characters returns, where `agree` says when they are
taken to be the same. -/
structure Compared (agree : Prop) (s1 s2 : List Byte) (count : Nat) (result : Int) : Prop where
  zero : result = 0 ↔ agree
  sign : ¬ agree → ∃ i < count, ∃ a b, s1.take i = s2.take i ∧ s1[i]? = some a ∧
    s2[i]? = some b ∧ a ≠ b ∧ result.sign = ((a.toNat : Int) - b.toNat).sign

/-- A comparison that reads no character behind the first `count`: it returns the same
for arrays that end there. -/
def Bounded (compare : List Byte → List Byte → Nat → Option Int) (agree : Prop)
    (s1 s2 : List Byte) (count : Nat) : Prop :=
  ∃ result, compare s1 s2 count = some result ∧
    compare (s1.take count) (s2.take count) count = some result ∧
    Compared agree s1 s2 count result

/-- Equal characters, up to the limit or to a common NUL before it. -/
def SameText (s1 s2 : List Byte) (count : Nat) : Prop :=
  s1.take count = s2.take count ∨
    ∃ i < count, s1[i]? = some 0 ∧ s1.take (i + 1) = s2.take (i + 1)

/-- The strings end or differ before the limit. -/
def Decided (s1 s2 : List Byte) (count : Nat) : Prop :=
  ∃ i < count, s1[i]? = some 0 ∨ s1[i]? ≠ s2[i]?

variable {s1 s2 : List Byte} {a b : Byte} {count : Nat} {agree : Prop} {result : Int}

/-! The comparison is decided by the first characters, or goes on behind them. -/

/-- The first characters differ. -/
theorem compared_here (hab : a ≠ b) (hagree : ¬ agree) :
    Compared agree (a :: s1) (b :: s2) (count + 1) ((a.toNat : Int) - b.toNat) where
  zero := by
    refine iff_of_false ?_ hagree
    rw [sub_eq_zero, Nat.cast_inj, BitVec.toNat_inj]
    exact hab
  sign _ := ⟨0, Nat.succ_pos count, a, b, rfl, rfl, rfl, hab, rfl⟩

/-- The first characters are the same, and the rest decides. -/
theorem Compared.behind {agree' : Prop} (h : Compared agree s1 s2 count result)
    (hagree : agree' ↔ agree) : Compared agree' (a :: s1) (a :: s2) (count + 1) result where
  zero := h.zero.trans hagree.symm
  sign hnot := by
    obtain ⟨i, hi, c, d, hsame, hc, hd, hne, hsign⟩ := h.sign (mt hagree.mpr hnot)
    refine ⟨i + 1, Nat.succ_lt_succ hi, c, d, ?_, hc, hd, hne, hsign⟩
    rw [List.take_succ_cons, List.take_succ_cons, hsame]

theorem sameText_cons (ha : a ≠ 0) :
    SameText (a :: s1) (a :: s2) (count + 1) ↔ SameText s1 s2 count := by
  unfold SameText
  rw [List.take_succ_cons, List.take_succ_cons, List.cons_inj_right]
  refine or_congr_right ⟨?_, ?_⟩
  · rintro ⟨i, hi, hzero, hsame⟩
    cases i with
    | zero => exact absurd (Option.some.inj hzero) ha
    | succ i =>
      rw [List.take_succ_cons, List.take_succ_cons, List.cons_inj_right] at hsame
      exact ⟨i, Nat.lt_of_succ_lt_succ hi, hzero, hsame⟩
  · rintro ⟨i, hi, hzero, hsame⟩
    refine ⟨i + 1, Nat.succ_lt_succ hi, hzero, ?_⟩
    rw [List.take_succ_cons, List.take_succ_cons, hsame]

theorem not_sameText (hab : a ≠ b) : ¬ SameText (a :: s1) (b :: s2) (count + 1) := by
  rintro (hsame | ⟨i, -, -, hsame⟩)
  · exact hab (List.cons.inj hsame).1
  · exact hab (List.cons.inj hsame).1

theorem decided_cons (ha : a ≠ 0) :
    Decided (a :: s1) (a :: s2) (count + 1) ↔ Decided s1 s2 count := by
  constructor
  · rintro ⟨i, hi, hstop⟩
    cases i with
    | zero =>
      rcases hstop with hzero | hne
      · exact absurd (Option.some.inj hzero) ha
      · exact absurd rfl hne
    | succ i => exact ⟨i, Nat.lt_of_succ_lt_succ hi, hstop⟩
  · rintro ⟨i, hi, hstop⟩
    exact ⟨i + 1, Nat.succ_lt_succ hi, hstop⟩

/-! `strncmp`. -/

theorem strncmp_end (s1 s2 : List Byte) (count : Nat) :
    strncmp (0 :: s1) s2 (count + 1) = difference (0 :: s1) s2 := by
  rw [strncmp.eq_def]
  exact if_pos rfl

theorem strncmp_differs (ha : a ≠ 0) (hab : a ≠ b) (s1 s2 : List Byte) (count : Nat) :
    strncmp (a :: s1) (b :: s2) (count + 1) = difference (a :: s1) (b :: s2) := by
  rw [strncmp, if_neg ha, if_neg hab]

theorem strncmp_same (ha : a ≠ 0) (s1 s2 : List Byte) (count : Nat) :
    strncmp (a :: s1) (a :: s2) (count + 1) = strncmp s1 s2 count := by
  rw [strncmp, if_neg ha, if_pos rfl]

theorem strncmp_bounded (h1 : Terminated s1) (h2 : Terminated s2) (hd : Decided s1 s2 count) :
    Bounded strncmp (SameText s1 s2 count) s1 s2 count := by
  induction count generalizing s1 s2 with
  | zero =>
    obtain ⟨i, hi, -⟩ := hd
    exact absurd hi (Nat.not_lt_zero i)
  | succ count ih =>
    obtain ⟨a, s1, rfl⟩ := List.exists_cons_of_ne_nil (List.ne_nil_of_mem h1)
    obtain ⟨b, s2, rfl⟩ := List.exists_cons_of_ne_nil (List.ne_nil_of_mem h2)
    by_cases hab : a = b
    · subst hab
      by_cases ha : a = 0
      · subst ha
        have hsame : SameText (0 :: s1) (0 :: s2) (count + 1) :=
          .inr ⟨0, Nat.succ_pos count, rfl, rfl⟩
        refine ⟨0, strncmp_end s1 _ count, strncmp_end _ _ count, ?_, ?_⟩
        · exact iff_of_true rfl hsame
        · exact fun hnot => absurd hsame hnot
      · obtain ⟨result, hresult, hshort, hcompared⟩ :=
          ih (h1.of_cons ha) (h2.of_cons ha) ((decided_cons ha).mp hd)
        refine ⟨result, ?_, ?_, hcompared.behind (sameText_cons ha)⟩
        · rw [strncmp_same ha, hresult]
        · rw [List.take_succ_cons, List.take_succ_cons, strncmp_same ha, hshort]
    · refine ⟨_, ?_, ?_, compared_here hab (not_sameText hab)⟩
      · by_cases ha : a = 0
        · subst ha
          exact strncmp_end s1 _ count
        · exact strncmp_differs ha hab s1 s2 count
      · by_cases ha : a = 0
        · subst ha
          exact strncmp_end _ _ count
        · exact strncmp_differs ha hab _ _ count

/-- Where the strings have not been told apart, the character at the limit is read. -/
theorem strncmp_reads_limit (h1 : Terminated s1) (h2 : Terminated s2)
    (hd : ¬ Decided s1 s2 count) : strncmp (s1.take count) (s2.take count) count = none := by
  induction count generalizing s1 s2 with
  | zero => rfl
  | succ count ih =>
    obtain ⟨a, s1, rfl⟩ := List.exists_cons_of_ne_nil (List.ne_nil_of_mem h1)
    obtain ⟨b, s2, rfl⟩ := List.exists_cons_of_ne_nil (List.ne_nil_of_mem h2)
    have ha : a ≠ 0 := fun ha => hd ⟨0, Nat.succ_pos count, .inl (congrArg some ha)⟩
    have hab : a = b := by
      by_contra hab
      exact hd ⟨0, Nat.succ_pos count, .inr fun h => hab (Option.some.inj h)⟩
    subst hab
    rw [List.take_succ_cons, List.take_succ_cons, strncmp_same ha]
    exact ih (h1.of_cons ha) (h2.of_cons ha) (mt (decided_cons ha).mpr hd)

/-! `memcmp`. -/

theorem memcmpLoop_differs (hab : a ≠ b) (s1 s2 : List Byte) (count : Nat) :
    memcmpLoop (a :: s1) (b :: s2) count = difference (a :: s1) (b :: s2) := by
  cases count with
  | zero => rfl
  | succ count => rw [memcmpLoop, if_neg hab]

theorem memcmpLoop_same (a : Byte) (s1 s2 : List Byte) (count : Nat) :
    memcmpLoop (a :: s1) (a :: s2) (count + 1) = memcmpLoop s1 s2 count := by
  rw [memcmpLoop, if_pos rfl]

theorem memcmpLoop_bounded (h1 : count < s1.length) (h2 : count < s2.length) :
    Bounded (fun s1 s2 _ => memcmpLoop s1 s2 count) (s1.take (count + 1) = s2.take (count + 1))
      s1 s2 (count + 1) := by
  induction count generalizing s1 s2 with
  | zero =>
    obtain ⟨a, s1, rfl⟩ := List.exists_cons_of_length_pos h1
    obtain ⟨b, s2, rfl⟩ := List.exists_cons_of_length_pos h2
    by_cases hab : a = b
    · subst hab
      refine ⟨_, rfl, rfl, ?_, ?_⟩
      · exact iff_of_true (sub_self _) rfl
      · exact fun hnot => absurd rfl hnot
    · exact ⟨_, rfl, rfl, compared_here hab fun h => hab (List.cons.inj h).1⟩
  | succ count ih =>
    obtain ⟨a, s1, rfl⟩ := List.exists_cons_of_length_pos (Nat.zero_lt_of_lt h1)
    obtain ⟨b, s2, rfl⟩ := List.exists_cons_of_length_pos (Nat.zero_lt_of_lt h2)
    by_cases hab : a = b
    · subst hab
      obtain ⟨result, hresult, hshort, hcompared⟩ :=
        ih (Nat.lt_of_succ_lt_succ h1) (Nat.lt_of_succ_lt_succ h2)
      refine ⟨result, ?_, ?_, hcompared.behind ?_⟩
      · exact (memcmpLoop_same a s1 s2 count).trans hresult
      · exact (memcmpLoop_same a _ _ count).trans hshort
      · rw [List.take_succ_cons, List.take_succ_cons, List.cons_inj_right]
    · refine ⟨_, memcmpLoop_differs hab s1 s2 _, memcmpLoop_differs hab _ _ _, ?_⟩
      exact compared_here hab fun h => hab (List.cons.inj h).1

/-- `--count` of 0. -/
theorem memcmp_zero : memcmp [] [] 0 = none := rfl

theorem memcmp_succ (hcount : count + 1 < 2 ^ 32) (s1 s2 : List Byte) :
    memcmp s1 s2 (count + 1) = memcmpLoop s1 s2 count := by
  have hdec : (count + 1 + (2 ^ 32 - 1)) % 2 ^ 32 = count := by omega
  rw [memcmp, hdec]

theorem memcmp_bounded (hpos : count ≠ 0) (hword : count < 2 ^ 32) (h1 : count ≤ s1.length)
    (h2 : count ≤ s2.length) : Bounded memcmp (s1.take count = s2.take count) s1 s2 count := by
  obtain ⟨count, rfl⟩ := Nat.exists_eq_succ_of_ne_zero hpos
  obtain ⟨result, hresult, hshort, hcompared⟩ := memcmpLoop_bounded h1 h2
  refine ⟨result, ?_, ?_, hcompared⟩
  · rw [memcmp_succ hword]
    exact hresult
  · rw [memcmp_succ hword]
    exact hshort

/-- `strncmp` keeps to its limit exactly where the strings end or differ before it, and
`memcmp` exactly where there is something to compare. -/
theorem bounded_comparisons_iff (s1 s2 : List Byte) (count : Nat) :
    (Terminated s1 → Terminated s2 →
      (Bounded strncmp (SameText s1 s2 count) s1 s2 count ↔ Decided s1 s2 count)) ∧
    (count ≤ s1.length → count ≤ s2.length → count < 2 ^ 32 →
      (Bounded memcmp (s1.take count = s2.take count) s1 s2 count ↔ count ≠ 0)) := by
  constructor
  · intro h1 h2
    refine ⟨?_, strncmp_bounded h1 h2⟩
    rintro ⟨result, -, hshort, -⟩
    by_contra hd
    rw [strncmp_reads_limit h1 h2 hd] at hshort
    cases hshort
  · intro h1 h2 hword
    refine ⟨?_, fun hpos => memcmp_bounded hpos hword h1 h2⟩
    rintro ⟨result, -, hshort, -⟩ rfl
    rw [List.take_zero, List.take_zero, memcmp_zero] at hshort
    cases hshort

/-- The call `strncmp (s, "Inf", 3)` for a text that goes on otherwise. -/
theorem short_texts_are_bounded :
    Bounded strncmp (SameText (text "In" ++ [0]) (text "Inf" ++ [0]) 3) (text "In" ++ [0])
      (text "Inf" ++ [0]) 3 ∧
    Bounded memcmp ((text "Inf").take 2 = (text "Ink").take 2) (text "Inf") (text "Ink") 2 := by
  constructor
  · exact ((bounded_comparisons_iff _ _ 3).1 (by unfold Terminated; decide)
      (by unfold Terminated; decide)).mpr ⟨2, by decide, .inl (by decide)⟩
  · exact ((bounded_comparisons_iff _ _ 2).2 (by decide) (by decide) (by decide)).mpr (by decide)

/-- `strncmp ("Infinity", "Inf", 3)` is 'i', and `memcmp` of no bytes compares. -/
theorem limits_are_passed :
    strncmp (text "Infinity" ++ [0]) (text "Inf" ++ [0]) 3 = some 105 ∧
    SameText (text "Infinity" ++ [0]) (text "Inf" ++ [0]) 3 ∧
    ¬ Bounded strncmp (SameText (text "Infinity" ++ [0]) (text "Inf" ++ [0]) 3)
      (text "Infinity" ++ [0]) (text "Inf" ++ [0]) 3 ∧
    memcmp [1] [2] 0 = some (-1) ∧
    ¬ Bounded memcmp (([1] : List Byte).take 0 = [2].take 0) [1] [2] 0 := by
  refine ⟨by decide, .inl (by decide), ?_, by decide +kernel, ?_⟩
  · rintro ⟨result, -, hshort, -⟩
    have hnone : strncmp ((text "Infinity" ++ [0]).take 3) ((text "Inf" ++ [0]).take 3) 3 =
        none := by
      decide
    rw [hnone] at hshort
    cases hshort
  · rintro ⟨result, -, hshort, -⟩
    rw [List.take_zero, List.take_zero, memcmp_zero] at hshort
    cases hshort

/-! `strstr`. -/

variable {line target : List Byte}

/-- The position is the lowest at which the target begins. -/
theorem occurrence_eq_some_iff (hne : target ≠ []) {p : Nat} :
    occurrence target line = some p ↔
      target <+: line.drop p ∧ ∀ q < p, ¬ target <+: line.drop q := by
  induction line generalizing p with
  | nil =>
    rw [occurrence, if_neg hne]
    apply iff_of_false
    · intro hfound
      cases hfound
    · rintro ⟨hfound, -⟩
      rw [List.drop_nil, List.prefix_nil] at hfound
      exact hne hfound
  | cons c line ih =>
    rw [occurrence]
    by_cases hhere : target <+: c :: line
    · rw [if_pos hhere, Option.some.injEq]
      constructor
      · rintro rfl
        exact ⟨hhere, fun q hq => absurd hq (Nat.not_lt_zero q)⟩
      · rintro ⟨-, hlowest⟩
        by_contra hp
        exact hlowest 0 (Nat.pos_of_ne_zero (Ne.symm hp)) hhere
    · rw [if_neg hhere, Option.map_eq_some_iff]
      constructor
      · rintro ⟨q, hq, rfl⟩
        obtain ⟨hfound, hlowest⟩ := ih.mp hq
        refine ⟨hfound, fun i hi => ?_⟩
        cases i with
        | zero => exact hhere
        | succ i => exact hlowest i (Nat.lt_of_succ_lt_succ hi)
      · rintro ⟨hfound, hlowest⟩
        cases p with
        | zero => exact absurd hfound hhere
        | succ q =>
          refine ⟨q, ih.mpr ⟨hfound, fun i hi => ?_⟩, rfl⟩
          exact hlowest (i + 1) (Nat.succ_lt_succ hi)

theorem occurrence_eq_none_iff : occurrence target line = none ↔ ¬ target <:+: line := by
  rw [← occurrence_isSome_iff, Option.not_isSome_iff_eq_none]

/-- The limit that is one short and the comparison that goes one too far meet: the result
is the first occurrence. What is behind the terminators does not matter, and nothing need
be there. The lengths are those that the `int` of `strlen` holds. -/
theorem strstr_finds_first (hline : (0 : Byte) ∉ line) (htarget : (0 : Byte) ∉ target)
    (hne : target ≠ []) (hlineFits : line.length < 2 ^ 31)
    (_htargetFits : target.length < 2 ^ 31) :
    ∃ found, (∀ rest rest', strstr (line ++ 0 :: rest) (target ++ 0 :: rest') = some found) ∧
      (∀ p, found = some p ↔ target <+: line.drop p ∧ ∀ q < p, ¬ target <+: line.drop q) ∧
      (found = none ↔ ¬ target <:+: line) :=
  ⟨occurrence target line, strstr_eq hline htarget hne (.inl (by omega)),
    fun _ => occurrence_eq_some_iff hne, occurrence_eq_none_iff⟩

/-- "/dev/" in the path of a device, and behind a name. -/
theorem dev_is_found :
    strstr (text "/fd/a/dev/b" ++ [0]) (text "/dev/" ++ [0]) = some (some 5) ∧
      text "/dev/" <+: (text "/fd/a/dev/b").drop 5 := by
  obtain ⟨found, hfound, hfirst, -⟩ :=
    @strstr_finds_first (text "/fd/a/dev/b") (text "/dev/") (by decide) (by decide) (by decide)
      (by decide) (by decide)
  have hrun : strstr (text "/fd/a/dev/b" ++ [0]) (text "/dev/" ++ [0]) = some (some 5) := by
    decide
  have hsome : found = some 5 := Option.some.inj ((hfound [] []).symm.trans hrun)
  exact ⟨hrun, ((hfirst 5).mp hsome).1⟩

end PosixRtos.Libc
