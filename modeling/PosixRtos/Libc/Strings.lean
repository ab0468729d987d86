import PosixRtos.Library.ByteMemory

/-! The string functions of `string.c`. A pointer into an array is the list of
the bytes from there to the end of the array, so that `*s` is its head and `++s`
its tail; `none` is a read outside of the array. -/
namespace PosixRtos.Libc

open PosixRtos.Library.ByteMemory

/-- A character of the source. -/
def ascii (c : Char) : Byte := BitVec.ofNat 8 c.toNat

def text (s : String) : List Byte := s.toList.map ascii

/-- There is a NUL before the array ends. -/
def Terminated (s : List Byte) : Prop := 0 ∈ s

/-- `*s1 - *s2`; `char` is unsigned on the boards' processors. -/
def difference (s1 s2 : List Byte) : Option Int := do
  let a ← s1.head?
  let b ← s2.head?
  some ((a.toNat : Int) - b.toNat)

def strlen : List Byte → Option Nat
  | [] => none
  | c :: s => if c = 0 then some 0 else (strlen s).map (· + 1)

/-- `strcmp`. The loop reads `*s2` only where `*s1` is not the terminator. -/
def strcmp : List Byte → List Byte → Option Int
  | [], _ => none
  | a :: s1, s2 =>
      if a = 0 then difference (a :: s1) s2
      else
        match s2 with
        | [] => none
        | b :: s2' => if a = b then strcmp s1 s2' else difference (a :: s1) s2

/-- `strncmp`. The loop reads `*s2` only where `*s1` is not the terminator. -/
def strncmp (s1 s2 : List Byte) : Nat → Option Int
  | 0 => difference s1 s2
  | count + 1 =>
      match s1 with
      | [] => none
      | a :: s1' =>
          if a = 0 then difference s1 s2
          else
            match s2 with
            | [] => none
            | b :: s2' => if a = b then strncmp s1' s2' count else difference s1 s2
termination_by structural count => count

/-- The loop of `strstr` with `tries` turns left; `offset` is how far `s1` has come. -/
def strstrLoop (s2 : List Byte) (count : Nat) : Nat → List Byte → Nat → Option (Option Nat)
  | 0, _, _ => some none
  | tries + 1, s1, offset => do
      let result ← strncmp s1 s2 count
      if result = 0 then some (some offset)
      else strstrLoop s2 count tries s1.tail (offset + 1)

/-- `strstr`, as the offset into `s1`. The comparison takes one character less
than `s2` has, and the loop runs while `l1 >= l2`. -/
def strstr (s1 s2 : List Byte) : Option (Option Nat) := do
  let l2 : Int := (← strlen s2) - 1
  let l1 : Int := ← strlen s1
  strstrLoop s2 (l2 % 2 ^ 32).toNat (l1 - l2 + 1).toNat s1 0

/-- `CH_IS_*`. -/
inductive ChClass where
  | text
  | backspace
  | enter
deriving DecidableEq

def chClassify (ch : Byte) : Option ChClass :=
  if ch ≤ ascii '9' ∧ ascii '0' ≤ ch then some .text
  else if ch ≤ ascii 'z' ∧ ascii 'a' ≤ ch then some .text
  else if ch ≤ ascii 'Z' ∧ ascii 'A' ≤ ch then some .text
  else if ch = ascii '_' then some .text
  else if ch = ascii ' ' then some .text
  else if ch = 0x7f then some .backspace
  else if ch = 0x0d then some .enter
  else none

variable {s s1 s2 : List Byte} {n count tries offset : Nat}

theorem Terminated.of_cons {c : Byte} (hs : Terminated (c :: s)) (hc : c ≠ 0) : Terminated s := by
  rcases List.mem_cons.mp hs with h | h
  · exact absurd h.symm hc
  · exact h

theorem strlen_of_terminated (hs : Terminated s) : ∃ n, strlen s = some n := by
  induction s with
  | nil => cases hs
  | cons c s ih =>
    rw [strlen]
    split
    · exact ⟨0, rfl⟩
    · next hc =>
      obtain ⟨n, hn⟩ := ih (hs.of_cons hc)
      exact ⟨n + 1, by rw [hn, Option.map_some]⟩

theorem terminated_of_strlen (hn : strlen s = some n) : Terminated s := by
  induction s generalizing n with
  | nil => cases hn
  | cons c s ih =>
    rw [strlen] at hn
    split at hn
    · next hc => exact List.mem_cons.mpr (.inl hc.symm)
    · obtain ⟨m, hm, -⟩ := Option.map_eq_some_iff.mp hn
      exact List.mem_cons_of_mem _ (ih hm)

/-- The length of a text that a NUL ends. -/
theorem strlen_text {t : List Byte} (ht : (0 : Byte) ∉ t) (rest : List Byte) :
    strlen (t ++ 0 :: rest) = some t.length := by
  induction t with
  | nil => rfl
  | cons c t ih =>
    rw [List.mem_cons, not_or] at ht
    rw [List.cons_append, strlen, if_neg (Ne.symm ht.1), ih ht.2]
    rfl

theorem difference_of_terminated (h1 : Terminated s1) (h2 : Terminated s2) :
    ∃ d, difference s1 s2 = some d := by
  cases s1 with
  | nil => cases h1
  | cons a s1 =>
    cases s2 with
    | nil => cases h2
    | cons b s2 => exact ⟨_, rfl⟩

/-- Neither string is left behind its terminator. -/
theorem strncmp_of_terminated (h1 : Terminated s1) (h2 : Terminated s2) (count : Nat) :
    ∃ d, strncmp s1 s2 count = some d := by
  induction count generalizing s1 s2 with
  | zero => exact difference_of_terminated h1 h2
  | succ count ih =>
    cases s1 with
    | nil => cases h1
    | cons a s1 =>
      cases s2 with
      | nil => cases h2
      | cons b s2 =>
        rw [strncmp]
        split
        · exact difference_of_terminated h1 h2
        · next ha =>
          split
          · next hab => exact ih (h1.of_cons ha) (h2.of_cons (hab ▸ ha))
          · exact difference_of_terminated h1 h2

/-- The loop does not go beyond the terminator of `s1`. -/
theorem strstrLoop_of_terminated (hn : strlen s1 = some n) (h2 : Terminated s2)
    (htries : tries ≤ n + 1) : ∃ r, strstrLoop s2 count tries s1 offset = some r := by
  induction tries generalizing s1 n offset with
  | zero => exact ⟨none, rfl⟩
  | succ tries ih =>
    obtain ⟨d, hd⟩ := strncmp_of_terminated (terminated_of_strlen hn) h2 count
    rw [strstrLoop, hd, Option.bind_eq_bind, Option.bind_some]
    split
    · exact ⟨_, rfl⟩
    cases s1 with
    | nil => cases hn
    | cons c s1 =>
      rw [strlen] at hn
      split at hn
      · cases hn
        obtain rfl : tries = 0 := by omega
        exact ⟨none, rfl⟩
      · obtain ⟨m, hm, rfl⟩ := Option.map_eq_some_iff.mp hn
        exact ih hm (by omega)

/-- With a target that is not empty, `strstr` stays inside of both strings. -/
theorem strstr_of_terminated (h1 : Terminated s1) {target : List Byte} (hnul : (0 : Byte) ∉ target)
    (hne : target ≠ []) (rest : List Byte) : ∃ r, strstr s1 (target ++ 0 :: rest) = some r := by
  obtain ⟨n, hn⟩ := strlen_of_terminated h1
  have hlength := List.length_pos_of_ne_nil hne
  simp only [strstr, strlen_text hnul, hn, Option.bind_eq_bind, Option.bind_some]
  apply strstrLoop_of_terminated hn
  · simp [Terminated]
  · omega

/-! What `strstr` finds. `strncmp` compares one character more than it is told to,
and `strstr` tells it one less than the target has. -/

/-- The lowest position at which `target` occurs. -/
def occurrence (target : List Byte) : List Byte → Option Nat
  | [] => if target = [] then some 0 else none
  | c :: line =>
      if target <+: c :: line then some 0 else (occurrence target line).map (· + 1)

variable {target line rest : List Byte}

theorem occurrence_zero_iff : occurrence target line = some 0 ↔ target <+: line := by
  cases line with
  | nil => simp [occurrence]
  | cons c line =>
    rw [occurrence]
    split
    next h => exact iff_of_true rfl h
    next h =>
      refine iff_of_false ?_ h
      simp

theorem occurrence_isSome_iff : (occurrence target line).isSome ↔ target <:+: line := by
  induction line with
  | nil => simp [occurrence, apply_ite]
  | cons c line ih =>
    rw [occurrence, List.infix_cons_iff, ← ih]
    split
    next h => simp [h]
    next h => simp [h]

theorem occurrence_long (h : line.length < target.length) : occurrence target line = none := by
  rw [← Option.not_isSome_iff_eq_none, occurrence_isSome_iff]
  exact fun hinfix => absurd hinfix.length_le (Nat.not_le.mpr h)

theorem difference_cons (a b : Byte) (s1 s2 : List Byte) :
    ∃ d, difference (a :: s1) (b :: s2) = some d ∧ (d = 0 ↔ a = b) := by
  refine ⟨_, rfl, ?_⟩
  rw [← BitVec.toNat_inj]
  omega

/-- Two texts that a NUL ends. -/
theorem strcmp_text {t : List Byte} (hline : (0 : Byte) ∉ line) (ht : (0 : Byte) ∉ t)
    (rest rest' : List Byte) :
    ∃ d, strcmp (line ++ 0 :: rest) (t ++ 0 :: rest') = some d ∧ (d = 0 ↔ line = t) := by
  induction line generalizing t with
  | nil =>
    cases t with
    | nil => exact ⟨0, rfl, iff_of_true rfl rfl⟩
    | cons b t =>
      obtain ⟨d, hd, hzero⟩ := difference_cons 0 b rest (t ++ 0 :: rest')
      refine ⟨d, hd, ?_⟩
      rw [List.mem_cons, not_or] at ht
      rw [hzero]
      exact iff_of_false ht.1 (List.cons_ne_nil _ _).symm
  | cons a line ih =>
    rw [List.mem_cons, not_or] at hline
    cases t with
    | nil =>
      obtain ⟨d, hd, hzero⟩ := difference_cons a 0 (line ++ 0 :: rest) rest'
      rw [List.nil_append, List.cons_append, strcmp, if_neg (Ne.symm hline.1),
        if_neg (Ne.symm hline.1)]
      refine ⟨d, hd, ?_⟩
      rw [hzero]
      exact iff_of_false (Ne.symm hline.1) (List.cons_ne_nil _ _)
    | cons b t =>
      rw [List.mem_cons, not_or] at ht
      rw [List.cons_append, List.cons_append, strcmp, if_neg (Ne.symm hline.1)]
      by_cases hab : a = b
      · rw [if_pos hab]
        obtain ⟨d, hd, hzero⟩ := ih hline.2 ht.2
        refine ⟨d, hd, ?_⟩
        simp [hzero, hab]
      · rw [if_neg hab]
        obtain ⟨d, hd, hzero⟩ := difference_cons a b (line ++ 0 :: rest) (t ++ 0 :: rest')
        refine ⟨d, hd, ?_⟩
        simp [hzero, hab]

/-- The comparison that `strstr` makes at one position. -/
theorem strncmp_target (ht : (0 : Byte) ∉ target) (hne : target ≠ [])
    (rest rest' : List Byte) :
    ∃ d, strncmp (line ++ 0 :: rest) (target ++ 0 :: rest') (target.length - 1) = some d ∧
      (d = 0 ↔ target <+: line) := by
  induction target generalizing line with
  | nil => exact absurd rfl hne
  | cons c target ih =>
    rw [List.mem_cons, not_or] at ht
    cases line with
    | nil =>
      obtain ⟨d, hd, hzero⟩ := difference_cons 0 c rest (target ++ 0 :: rest')
      refine ⟨d, ?_, ?_⟩
      · cases target with
        | nil => exact hd
        | cons c' target =>
          rw [List.length_cons, Nat.add_sub_cancel, List.length_cons, List.nil_append,
            List.cons_append, strncmp, if_pos rfl]
          exact hd
      · rw [hzero]
        exact iff_of_false ht.1 fun hstart => hne (List.prefix_nil.mp hstart)
    | cons a line =>
      obtain ⟨d, hd, hzero⟩ :=
        difference_cons a c (line ++ 0 :: rest) (target ++ 0 :: rest')
      cases target with
      | nil =>
        refine ⟨d, hd, ?_⟩
        rw [hzero, List.cons_prefix_cons]
        simp [eq_comm]
      | cons c' target =>
        rw [List.length_cons, Nat.add_sub_cancel, List.length_cons, List.cons_append,
          List.cons_append, strncmp]
        by_cases ha : a = 0
        · rw [if_pos ha, hd]
          refine ⟨d, rfl, ?_⟩
          rw [hzero, List.cons_prefix_cons]
          refine iff_of_false ?_ ?_
          · rintro rfl
            exact ht.1 ha.symm
          · rintro ⟨rfl, -⟩
            exact ht.1 ha.symm
        · rw [if_neg ha]
          by_cases hac : a = c
          · rw [if_pos hac, List.cons_prefix_cons]
            obtain ⟨d', hd', hzero'⟩ := @ih line ht.2 (List.cons_ne_nil _ _)
            refine ⟨d', hd', ?_⟩
            simp [hzero', hac]
          · rw [if_neg hac, hd]
            refine ⟨d, rfl, ?_⟩
            rw [hzero, List.cons_prefix_cons]
            simp [hac, Ne.symm hac]

/-- The loop tries each position, up to the one of the terminator. -/
theorem strstrLoop_eq (ht : (0 : Byte) ∉ target) (hne : target ≠ []) (rest rest' : List Byte)
    (hlow : line.length + 1 < tries + target.length) (hhigh : tries ≤ line.length + 1) :
    strstrLoop (target ++ 0 :: rest') (target.length - 1) tries (line ++ 0 :: rest) offset =
      some ((occurrence target line).map (offset + ·)) := by
  induction tries generalizing line offset with
  | zero =>
    rw [occurrence_long (by omega)]
    rfl
  | succ tries ih =>
    obtain ⟨d, hd, hzero⟩ := @strncmp_target target line ht hne rest rest'
    rw [strstrLoop, hd, Option.bind_eq_bind, Option.bind_some]
    cases line with
    | nil =>
      obtain rfl : tries = 0 := by simpa using hhigh
      have hd' : d ≠ 0 := fun h => hne (List.prefix_nil.mp (hzero.mp h))
      rw [if_neg hd', occurrence, if_neg hne]
      rfl
    | cons a line =>
      rw [occurrence]
      by_cases hfound : target <+: a :: line
      · rw [if_pos (hzero.mpr hfound), if_pos hfound]
        rfl
      · rw [if_neg (mt hzero.mp hfound), if_neg hfound, List.cons_append, List.tail_cons,
          ih (by rw [List.length_cons] at hlow; omega) (by rw [List.length_cons] at hhigh; omega)]
        cases occurrence target line with
        | none => rfl
        | some n =>
          simp only [Option.map_some]
          congr 2
          omega

theorem strstr_eq (hline : (0 : Byte) ∉ line) (ht : (0 : Byte) ∉ target) (hne : target ≠ [])
    (hfits : line.length < 2 ^ 32 ∨ target.length ≤ 2 ^ 32) (rest rest' : List Byte) :
    strstr (line ++ 0 :: rest) (target ++ 0 :: rest') = some (occurrence target line) := by
  have hpos := List.length_pos_of_ne_nil hne
  simp only [strstr, strlen_text hline, strlen_text ht, Option.bind_eq_bind, Option.bind_some]
  by_cases hlong : line.length < target.length - 1
  · have hnone : ((line.length : Int) - (target.length - 1) + 1).toNat = 0 := by omega
    rw [hnone, occurrence_long (by omega)]
    rfl
  · have hcount : (((target.length : Int) - 1) % 2 ^ 32).toNat = target.length - 1 := by omega
    have htries : ((line.length : Int) - (target.length - 1) + 1).toNat =
        line.length + 2 - target.length := by omega
    rw [hcount, htries, strstrLoop_eq ht hne rest rest' (by omega) (by omega)]
    simp

end PosixRtos.Libc
