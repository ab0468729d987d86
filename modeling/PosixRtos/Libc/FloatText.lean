import Mathlib.Data.List.DropRight
import PosixRtos.Libc.Grammar

/-! `forcdecpt` and `cropzeros` of `stdio.c`, which put the decimal point into the text of
a number and take the zeros behind it away. Both move the rest of the text by a loop:
the one of `forcdecpt` leaves the letter of the exponent out, the one of `cropzeros`
compares where it should copy. The array that holds the text is a list; `none` is an
access outside of it. -/
namespace PosixRtos.Libc

open PosixRtos.Library.ByteMemory

/-- `while (*buffer && ...) buffer++`: the position at which it stops. -/
def scan (stop : Byte → Bool) : List Byte → Nat → Option Nat
  | [], _ => none
  | c :: s, i => if c = 0 ∨ stop c = true then some i else scan stop s (i + 1)

def store (buf : List Byte) (i : Nat) (c : Byte) : Option (List Byte) :=
  if i < buf.length then some (buf.set i c) else none

/-- `while (n > 0) { buffer[n + 1] = buffer[n]; n--; }` -/
def shiftUp (buf : List Byte) (buffer : Nat) : Nat → Option (List Byte)
  | 0 => some buf
  | n + 1 => do
      let c ← buf[buffer + (n + 1)]?
      let buf ← store buf (buffer + (n + 1) + 1) c
      shiftUp buf buffer n

def isExponent (c : Byte) : Bool := c = ascii 'e' ∨ c = ascii 'E'

def forcdecpt (buf : List Byte) : Option (List Byte) := do
  let buffer ← scan (fun c => c = ascii '.' ∨ isExponent c = true) buf 0
  let c ← buf[buffer]?
  if c = ascii '.' then some buf
  else if c ≠ 0 then do
    let n ← strlen (buf.drop buffer)
    let buf ← shiftUp buf buffer n
    store buf buffer (ascii '.')
  else do
    let buf ← store buf buffer (ascii '.')
    store buf (buffer + 1) 0

/-- `while ('0' == *buffer) buffer--` with the position behind `buffer`. -/
def backOver (buf : List Byte) : Nat → Option Nat
  | 0 => none
  | p + 1 => do
      let c ← buf[p]?
      if c = ascii '0' then backOver buf p else some (p + 1)

/-- `while (*++buffer == *stop++)` with the characters behind the two pointers. -/
def passEqual : List Byte → List Byte → Option Unit
  | a :: s, b :: t => if a = b then passEqual s t else some ()
  | _, _ => none

def cropzeros (buf : List Byte) : Option (List Byte) := do
  let point ← scan (fun c => c = ascii '.') buf 0
  let c ← buf[point]?
  if c ≠ 0 then do
    let stop ← scan isExponent (buf.drop (point + 1)) (point + 1)
    let behind ← backOver buf stop
    let c ← buf[behind - 1]?
    let behind := if c = ascii '.' then behind - 1 else behind
    let _ ← passEqual (buf.drop behind) (buf.drop stop)
    some buf
  else some buf

/-! The texts: digits, a fraction, an exponent. -/

structure Exponent where
  capital : Bool
  negative : Bool
  digits : List (Fin 10)
  nonempty : digits ≠ []

structure Numeral where
  whole : List (Fin 10)
  nonempty : whole ≠ []
  fraction : Option (List (Fin 10))
  exponent : Option Exponent

def digitChar (d : Fin 10) : Byte := BitVec.ofNat 8 (48 + d.val)

def digitChars (ds : List (Fin 10)) : List Byte := ds.map digitChar

def Exponent.letter (e : Exponent) : Byte := if e.capital then ascii 'E' else ascii 'e'

def Exponent.sign (e : Exponent) : Byte := if e.negative then ascii '-' else ascii '+'

def Exponent.text (e : Exponent) : List Byte := e.letter :: e.sign :: digitChars e.digits

def fractionText : Option (List (Fin 10)) → List Byte
  | none => []
  | some ds => ascii '.' :: digitChars ds

def Numeral.text (t : Numeral) : List Byte :=
  digitChars t.whole ++ fractionText t.fraction ++ t.exponent.elim [] Exponent.text

def digitsValue (ds : List (Fin 10)) : Nat := ds.foldl (fun v d => 10 * v + d.val) 0

def Exponent.value (e : Exponent) : Int :=
  if e.negative then -digitsValue e.digits else digitsValue e.digits

/-- The rational number that a text denotes. -/
def Numeral.value (t : Numeral) : ℚ :=
  digitsValue (t.whole ++ t.fraction.getD []) *
    10 ^ (t.exponent.elim 0 Exponent.value - (t.fraction.getD []).length)

/-- The text with a point. -/
def Numeral.withPoint (t : Numeral) : Numeral :=
  { t with fraction := some (t.fraction.getD []) }

/-- The digits of a fraction without the zeros at its end. -/
def cropTail (ds : List (Fin 10)) : List (Fin 10) := ds.rdropWhile (· = 0)

/-- The text without the zeros that end the fraction, and without a point that nothing
follows. -/
def Numeral.cropped (t : Numeral) : Numeral :=
  { t with fraction := t.fraction.bind fun ds =>
      if cropTail ds = [] then none else some (cropTail ds) }

/-- `forcdecpt` puts in what is missing. -/
def ForcesPoint (t : Numeral) (rest : List Byte) : Prop :=
  ∃ rest', forcdecpt (t.text ++ 0 :: rest) = some (t.withPoint.text ++ 0 :: rest') ∧
    t.withPoint.value = t.value

/-- `cropzeros` leaves out what says nothing. -/
def CropsZeros (t : Numeral) (rest : List Byte) : Prop :=
  ∃ rest', cropzeros (t.text ++ 0 :: rest) = some (t.cropped.text ++ 0 :: rest') ∧
    t.cropped.value = t.value

/-! The texts that are asked for denote the same number. -/

theorem digitsValue_concat (ds : List (Fin 10)) (d : Fin 10) :
    digitsValue (ds ++ [d]) = 10 * digitsValue ds + d.val := by
  rw [digitsValue, List.foldl_append]
  rfl

theorem digitsValue_zeros (ds : List (Fin 10)) (k : Nat) :
    digitsValue (ds ++ List.replicate k 0) = digitsValue ds * 10 ^ k := by
  induction k with
  | zero => simp
  | succ k ih =>
    rw [List.replicate_succ', ← List.append_assoc, digitsValue_concat, ih, pow_succ]
    change 10 * _ + 0 = _
    ring

theorem cropTail_append (ds : List (Fin 10)) :
    ∃ k, ds = cropTail ds ++ List.replicate k 0 := by
  induction ds using List.reverseRecOn with
  | nil => exact ⟨0, rfl⟩
  | append_singleton ds d ih =>
    rw [cropTail, List.rdropWhile_concat]
    split
    next hd =>
      obtain ⟨k, hk⟩ := ih
      refine ⟨k + 1, ?_⟩
      rw [List.replicate_succ', ← List.append_assoc]
      change _ = cropTail ds ++ _ ++ _
      rw [← hk, of_decide_eq_true hd]
    next => exact ⟨0, (List.append_nil _).symm⟩

theorem Numeral.withPoint_value (t : Numeral) : t.withPoint.value = t.value := rfl

theorem Numeral.cropped_value (t : Numeral) : t.cropped.value = t.value := by
  cases hfraction : t.fraction with
  | none =>
    unfold Numeral.value Numeral.cropped
    rw [hfraction]
    rfl
  | some ds =>
    obtain ⟨k, hk⟩ := cropTail_append ds
    have hgetD : t.cropped.fraction.getD [] = cropTail ds := by
      rw [Numeral.cropped, hfraction]
      dsimp only [Option.bind_some]
      split
      next hnil => exact hnil.symm
      next => rfl
    have hlength : (ds.length : Int) = (cropTail ds).length + k := by
      conv_lhs => rw [hk]
      rw [List.length_append, List.length_replicate, Nat.cast_add]
    have hdigits : digitsValue (t.whole ++ ds) = digitsValue (t.whole ++ cropTail ds) * 10 ^ k := by
      conv_lhs => rw [hk]
      rw [← List.append_assoc, digitsValue_zeros]
    have hpow : (10 : ℚ) ^ k * 10 ^ (t.exponent.elim 0 Exponent.value -
        ((cropTail ds).length + k : Int)) =
        10 ^ (t.exponent.elim 0 Exponent.value - ((cropTail ds).length : Int)) := by
      rw [← zpow_natCast, ← zpow_add₀ (by norm_num)]
      congr 1
      ring
    unfold Numeral.value
    rw [hgetD, hfraction, Option.getD_some, hlength, hdigits, Nat.cast_mul, Nat.cast_pow,
      Nat.cast_ofNat, mul_assoc, hpow]
    rfl

/-! The characters. -/

variable {t : Numeral} {ds : List (Fin 10)} {pre post rest : List Byte} {c : Byte}
  {stop : Byte → Bool} {n i : Nat}

theorem digitChar_facts : ∀ d : Fin 10, digitChar d ≠ 0 ∧ digitChar d ≠ ascii '.' ∧
    isExponent (digitChar d) = false ∧ (digitChar d = ascii '0' ↔ d = 0) := by decide

theorem Exponent.letter_facts (e : Exponent) :
    e.letter ≠ 0 ∧ e.letter ≠ ascii '.' ∧ e.letter ≠ ascii '0' ∧ isExponent e.letter = true := by
  unfold Exponent.letter
  split <;> decide

theorem Exponent.sign_facts (e : Exponent) :
    e.sign ≠ 0 ∧ isExponent e.sign = false := by
  unfold Exponent.sign
  split <;> decide

theorem length_digitChars (ds : List (Fin 10)) : (digitChars ds).length = ds.length :=
  List.length_map _

theorem zero_notMem_digitChars (ds : List (Fin 10)) : (0 : Byte) ∉ digitChars ds := by
  intro h
  obtain ⟨d, -, hd⟩ := List.mem_map.mp h
  exact (digitChar_facts d).1 hd

theorem Exponent.zero_notMem_text (e : Exponent) : (0 : Byte) ∉ e.text := by
  intro h
  rcases List.mem_cons.mp h with h | h
  · exact e.letter_facts.1 h.symm
  rcases List.mem_cons.mp h with h | h
  · exact e.sign_facts.1 h.symm
  · exact zero_notMem_digitChars _ h

theorem Numeral.zero_notMem_text (t : Numeral) : (0 : Byte) ∉ t.text := by
  unfold Numeral.text
  rw [List.mem_append, List.mem_append, not_or, not_or]
  refine ⟨⟨zero_notMem_digitChars _, ?_⟩, ?_⟩
  · cases t.fraction with
    | none => exact List.not_mem_nil
    | some ds =>
      intro h
      rcases List.mem_cons.mp h with h | h
      · exact absurd h (by decide)
      · exact zero_notMem_digitChars ds h
  · cases t.exponent with
    | none => exact List.not_mem_nil
    | some e => exact e.zero_notMem_text

/-- The text in front of the first NUL. -/
theorem text_eq_of_append {s s' r r' : List Byte} (hs : (0 : Byte) ∉ s) (hs' : (0 : Byte) ∉ s')
    (h : s ++ 0 :: r = s' ++ 0 :: r') : s = s' := by
  have hlength : s.length = s'.length := by
    apply Option.some.inj
    rw [← strlen_text hs r, ← strlen_text hs' r', h]
  exact (List.append_inj h hlength).1

/-! The loops. -/

theorem scan_append (hpre : ∀ c ∈ pre, c ≠ 0 ∧ stop c = false) (hc : c = 0 ∨ stop c = true) :
    scan stop (pre ++ c :: post) i = some (i + pre.length) := by
  induction pre generalizing i with
  | nil => rw [List.nil_append, scan, if_pos hc, List.length_nil, Nat.add_zero]
  | cons a pre ih =>
    obtain ⟨hzero, hstop⟩ := hpre a List.mem_cons_self
    rw [List.cons_append, scan, if_neg (not_or.mpr ⟨hzero, Bool.not_eq_true _ ▸ hstop⟩),
      ih fun c hc => hpre c (List.mem_cons_of_mem a hc), List.length_cons, Nat.add_assoc,
      Nat.add_comm 1]

theorem digitChars_passed (ds : List (Fin 10)) (hstop : ∀ d, stop (digitChar d) = false) :
    ∀ c ∈ digitChars ds, c ≠ 0 ∧ stop c = false := by
  intro c hc
  obtain ⟨d, -, rfl⟩ := List.mem_map.mp hc
  exact ⟨(digitChar_facts d).1, hstop d⟩

/-- The loop does not write at the pointer and right behind it. -/
theorem shiftUp_front {buf buf' : List Byte} {buffer j : Nat} (h : shiftUp buf buffer n = some buf')
    (hj : j ≤ buffer + 1) : buf'[j]? = buf[j]? := by
  induction n generalizing buf with
  | zero =>
    cases h
    rfl
  | succ n ih =>
    obtain ⟨c, -, h⟩ := Option.bind_eq_some_iff.mp h
    obtain ⟨buf₁, hstore, h⟩ := Option.bind_eq_some_iff.mp h
    unfold store at hstore
    split at hstore
    · cases hstore
      rw [ih h, List.getElem?_set_ne (by omega)]
    · cases hstore

/-- `*buffer` where the text has been cut in two. -/
theorem getElem?_behind (pre post : List Byte) (c : Byte) :
    (pre ++ c :: post)[pre.length]? = some c := by
  rw [List.getElem?_append_right le_rfl, Nat.sub_self]
  rfl

/-! `forcdecpt`. -/

theorem digitChars_forcdecpt (ds : List (Fin 10)) : ∀ c ∈ digitChars ds,
    c ≠ 0 ∧ decide (c = ascii '.' ∨ isExponent c = true) = false := by
  refine digitChars_passed ds fun d => ?_
  obtain ⟨-, hpoint, hexponent, -⟩ := digitChar_facts d
  simp [hpoint, hexponent]

theorem forcdecpt_point (hfraction : t.fraction = some ds) (rest : List Byte) :
    ForcesPoint t rest := by
  have hsame : t.withPoint = t := by
    unfold Numeral.withPoint
    rw [hfraction]
    cases t
    cases hfraction
    rfl
  have htext : t.text ++ 0 :: rest = digitChars t.whole ++ ascii '.' ::
      (digitChars ds ++ t.exponent.elim [] Exponent.text ++ 0 :: rest) := by
    rw [Numeral.text, hfraction, fractionText]
    simp only [List.append_assoc, List.cons_append]
  unfold ForcesPoint
  rw [hsame]
  refine ⟨rest, ?_, rfl⟩
  rw [htext, forcdecpt, scan_append (digitChars_forcdecpt t.whole) (.inr (by decide)),
    Nat.zero_add, Option.bind_eq_bind, Option.bind_some, getElem?_behind]
  rfl

/-- A whole number gets its point at the end. -/
theorem forcdecpt_whole (hfraction : t.fraction = none) (hexponent : t.exponent = none)
    (hroom : rest ≠ []) : ForcesPoint t rest := by
  obtain ⟨r, rest, rfl⟩ := List.exists_cons_of_ne_nil hroom
  have htext : t.text = digitChars t.whole := by
    rw [Numeral.text, hfraction, hexponent]
    simp [fractionText]
  have hpoint : t.withPoint.text = digitChars t.whole ++ [ascii '.'] := by
    rw [Numeral.text, Numeral.withPoint, hfraction, hexponent]
    simp [fractionText, digitChars]
  refine ⟨rest, ?_, ?_⟩
  · rw [htext, hpoint, forcdecpt,
      scan_append (digitChars_forcdecpt t.whole) (.inl rfl), Nat.zero_add, Option.bind_eq_bind,
      Option.bind_some, getElem?_behind]
    have hfirst : store (digitChars t.whole ++ 0 :: r :: rest) (digitChars t.whole).length
        (ascii '.') = some (digitChars t.whole ++ ascii '.' :: r :: rest) := by
      rw [store, if_pos (by simp), List.set_append_right _ _ le_rfl, Nat.sub_self]
      rfl
    have hsecond : store (digitChars t.whole ++ ascii '.' :: r :: rest)
        ((digitChars t.whole).length + 1) 0 =
          some (digitChars t.whole ++ [ascii '.'] ++ 0 :: rest) := by
      rw [store, if_pos (by simp), List.set_append_right _ _ (Nat.le_add_right _ 1),
        Nat.add_sub_cancel_left]
      simp
    change (store _ _ _).bind (fun buf => store buf _ 0) = _
    rw [hfirst, Option.bind_some, hsecond]
  · exact t.withPoint_value

/-- The letter of the exponent is overwritten with the point, and the sign stays where it
is. -/
theorem forcdecpt_exponent {e : Exponent} (hfraction : t.fraction = none)
    (hexponent : t.exponent = some e) (rest : List Byte) : ¬ ForcesPoint t rest := by
  rintro ⟨rest', hcall, -⟩
  have htext : t.text ++ 0 :: rest = digitChars t.whole ++
      e.letter :: e.sign :: (digitChars e.digits ++ 0 :: rest) := by
    rw [Numeral.text, hfraction, hexponent]
    simp [fractionText, Exponent.text]
  have hpoint : t.withPoint.text ++ 0 :: rest' = digitChars t.whole ++
      ascii '.' :: e.letter :: e.sign :: (digitChars e.digits ++ 0 :: rest') := by
    rw [Numeral.text, Numeral.withPoint, hfraction, hexponent]
    simp [fractionText, digitChars, Exponent.text]
  obtain ⟨hzero, hdot, -, hletter⟩ := e.letter_facts
  rw [htext, hpoint, forcdecpt, scan_append (digitChars_forcdecpt t.whole)
    (.inr (by simp [hletter])), Nat.zero_add, Option.bind_eq_bind, Option.bind_some,
    getElem?_behind, Option.bind_eq_bind, Option.bind_some, if_neg hdot, if_pos hzero] at hcall
  obtain ⟨n, -, hcall⟩ := Option.bind_eq_some_iff.mp hcall
  obtain ⟨buf, hshift, hcall⟩ := Option.bind_eq_some_iff.mp hcall
  unfold store at hcall
  split at hcall
  swap
  · cases hcall
  -- what stands behind the point
  have hfront := shiftUp_front hshift (le_refl ((digitChars t.whole).length + 1))
  have hbehind := congrArg (fun buf => buf[(digitChars t.whole).length + 1]?)
    (Option.some.inj hcall)
  rw [List.getElem?_set_ne (by omega), hfront,
    List.getElem?_append_right (Nat.le_add_right _ 1),
    List.getElem?_append_right (Nat.le_add_right _ 1), Nat.add_sub_cancel_left] at hbehind
  have hsame : e.sign = e.letter := Option.some.inj hbehind
  rw [← hsame, e.sign_facts.2] at hletter
  cases hletter

/-! `cropzeros`. -/

/-- It writes nothing. -/
theorem cropzeros_eq {buf buf' : List Byte} (h : cropzeros buf = some buf') : buf' = buf := by
  obtain ⟨point, -, h⟩ := Option.bind_eq_some_iff.mp h
  obtain ⟨c, -, h⟩ := Option.bind_eq_some_iff.mp h
  split at h
  · obtain ⟨stop, -, h⟩ := Option.bind_eq_some_iff.mp h
    obtain ⟨behind, -, h⟩ := Option.bind_eq_some_iff.mp h
    obtain ⟨c, -, h⟩ := Option.bind_eq_some_iff.mp h
    obtain ⟨-, -, h⟩ := Option.bind_eq_some_iff.mp h
    exact (Option.some.inj h).symm
  · exact (Option.some.inj h).symm

/-- Two pointers to the same character leave the array together. -/
theorem passEqual_self (s : List Byte) : passEqual s s = none := by
  induction s with
  | nil => rfl
  | cons c s ih => rw [passEqual, if_pos rfl, ih]

theorem cropzeros_whole (hfraction : t.fraction = none) (rest : List Byte) : CropsZeros t rest := by
  have hsame : t.cropped = t := by
    cases t
    cases hfraction
    rfl
  have hpassed : ∀ c ∈ t.text, c ≠ 0 ∧ decide (c = ascii '.') = false := by
    intro c hc
    refine ⟨fun hzero => t.zero_notMem_text (hzero ▸ hc), ?_⟩
    rw [Numeral.text, hfraction, fractionText, List.append_nil, List.mem_append] at hc
    rw [decide_eq_false_iff_not]
    rcases hc with hc | hc
    · obtain ⟨d, -, rfl⟩ := List.mem_map.mp hc
      exact (digitChar_facts d).2.1
    · cases hexponent : t.exponent with
      | none =>
        rw [hexponent] at hc
        cases hc
      | some e =>
        rw [hexponent] at hc
        rcases List.mem_cons.mp hc with rfl | hc
        · exact e.letter_facts.2.1
        rcases List.mem_cons.mp hc with rfl | hc
        · unfold Exponent.sign
          split <;> decide
        · obtain ⟨d, -, rfl⟩ := List.mem_map.mp hc
          exact (digitChar_facts d).2.1
  refine ⟨rest, ?_, t.cropped_value⟩
  rw [hsame, cropzeros, scan_append hpassed (.inl rfl), Nat.zero_add, Option.bind_eq_bind,
    Option.bind_some, getElem?_behind]
  rfl

/-- Without a zero at the end of the fraction the last loop compares characters with
themselves. -/
theorem cropzeros_runs_off {d : Fin 10} (hd : d ≠ 0) (hfraction : t.fraction = some (ds ++ [d]))
    (rest : List Byte) : cropzeros (t.text ++ 0 :: rest) = none := by
  obtain ⟨post, hpost⟩ : ∃ post, t.exponent.elim [] Exponent.text ++ 0 :: rest = post := ⟨_, rfl⟩
  have htext : t.text ++ 0 :: rest =
      digitChars t.whole ++ ascii '.' :: (digitChars (ds ++ [d]) ++ post) := by
    rw [Numeral.text, hfraction, fractionText, ← hpost]
    simp only [List.append_assoc, List.cons_append]
  have hstops : ∃ c rest', post = c :: rest' ∧ (c = 0 ∨ isExponent c = true) := by
    rw [← hpost]
    cases t.exponent with
    | none => exact ⟨0, rest, rfl, .inl rfl⟩
    | some e => exact ⟨e.letter, _, rfl, .inr e.letter_facts.2.2.2⟩
  obtain ⟨c, rest', rfl, hc⟩ := hstops
  obtain ⟨-, hpoint, -, hzero⟩ := digitChar_facts d
  have hdrop : (digitChars t.whole ++ ascii '.' :: (digitChars (ds ++ [d]) ++ c :: rest')).drop
      ((digitChars t.whole).length + 1) = digitChars (ds ++ [d]) ++ c :: rest' := by
    rw [← List.drop_drop, List.drop_left]
    rfl
  have hscan : scan isExponent (digitChars (ds ++ [d]) ++ c :: rest')
      ((digitChars t.whole).length + 1) =
        some ((digitChars t.whole).length + 1 + (digitChars (ds ++ [d])).length) :=
    scan_append (digitChars_passed _ fun d => (digitChar_facts d).2.2.1) hc
  have hlength : (digitChars t.whole).length + 1 + (digitChars (ds ++ [d])).length =
      (digitChars t.whole).length + 1 + (digitChars ds).length + 1 := by
    rw [length_digitChars (ds ++ [d]), List.length_append, length_digitChars ds]
    rfl
  have hlast : (digitChars t.whole ++ ascii '.' :: (digitChars (ds ++ [d]) ++ c :: rest'))[
      (digitChars t.whole).length + 1 + (digitChars ds).length]? = some (digitChar d) := by
    rw [← List.getElem?_drop, hdrop, digitChars, List.map_append, List.append_assoc]
    exact getElem?_behind (digitChars ds) _ (digitChar d)
  rw [htext, cropzeros, scan_append (digitChars_passed _ fun d => ?_) (.inr (by decide)),
    Nat.zero_add, Option.bind_eq_bind, Option.bind_some, getElem?_behind, Option.bind_eq_bind,
    Option.bind_some, if_pos (by decide), hdrop, hscan, hlength, Option.bind_eq_bind,
    Option.bind_some, backOver, hlast, Option.bind_eq_bind, Option.bind_some,
    if_neg (mt hzero.mp hd), Option.bind_some, Nat.add_sub_cancel, hlast, Option.bind_some,
    if_neg hpoint]
  · dsimp only
    rw [passEqual_self]
    rfl
  · exact decide_eq_false (digitChar_facts d).2.1

theorem cropTail_length_le (ds : List (Fin 10)) : (cropTail ds).length ≤ ds.length :=
  (List.rdropWhile_prefix _ _).length_le

/-- A text that is to be cropped gets shorter. -/
theorem Numeral.cropped_shorter (hfraction : t.fraction = some ds)
    (hds : ds = [] ∨ (cropTail ds).length < ds.length) :
    t.cropped.text.length < t.text.length := by
  have htext : t.text.length = (digitChars t.whole).length + (ds.length + 1) +
      (t.exponent.elim [] Exponent.text).length := by
    rw [Numeral.text, hfraction, List.length_append, List.length_append, fractionText,
      List.length_cons, length_digitChars ds]
  have hcropped : t.cropped.text.length = (digitChars t.whole).length +
      (fractionText (if cropTail ds = [] then none else some (cropTail ds))).length +
        (t.exponent.elim [] Exponent.text).length := by
    rw [Numeral.text, Numeral.cropped, hfraction, List.length_append, List.length_append]
    rfl
  rw [htext, hcropped]
  by_cases hnil : cropTail ds = []
  · rw [if_pos hnil, fractionText, List.length_nil]
    omega
  · have hshort : (cropTail ds).length < ds.length := by
      rcases hds with rfl | hds
      · exact absurd rfl hnil
      · exact hds
    rw [if_neg hnil, fractionText, List.length_cons, length_digitChars (cropTail ds)]
    omega

theorem cropzeros_fraction (hfraction : t.fraction = some ds) (rest : List Byte) :
    ¬ CropsZeros t rest := by
  rintro ⟨rest', hcall, -⟩
  have hsame := text_eq_of_append t.cropped.zero_notMem_text t.zero_notMem_text
    (cropzeros_eq hcall)
  rcases List.eq_nil_or_concat ds with hnil | ⟨front, d, hconcat⟩
  · exact absurd (congrArg List.length hsame) (t.cropped_shorter hfraction (.inl hnil)).ne
  · rw [List.concat_eq_append] at hconcat
    by_cases hd : d = 0
    · have hshort : (cropTail ds).length < ds.length := by
        have hle := cropTail_length_le front
        rw [hconcat, cropTail, List.rdropWhile_concat, if_pos (by simpa using hd),
          List.length_append, List.length_singleton]
        exact Nat.lt_succ_of_le hle
      exact absurd (congrArg List.length hsame) (t.cropped_shorter hfraction (.inr hshort)).ne
    · rw [cropzeros_runs_off hd (hconcat ▸ hfraction)] at hcall
      cases hcall

/-- What the two functions make of a text with room for one more character. -/
theorem float_text_kept_iff (t : Numeral) (hroom : rest ≠ []) :
    (ForcesPoint t rest ↔ t.fraction ≠ none ∨ t.exponent = none) ∧
      (CropsZeros t rest ↔ t.fraction = none) := by
  cases hfraction : t.fraction with
  | none =>
    refine ⟨?_, iff_of_true (cropzeros_whole hfraction rest) rfl⟩
    cases hexponent : t.exponent with
    | none => exact iff_of_true (forcdecpt_whole hfraction hexponent hroom) (.inr rfl)
    | some e => exact iff_of_false (forcdecpt_exponent hfraction hexponent rest) (by simp)
  | some ds =>
    exact ⟨iff_of_true (forcdecpt_point hfraction rest) (.inl nofun),
      iff_of_false (cropzeros_fraction hfraction rest) nofun⟩

def twelve : Numeral := ⟨[1, 2], by decide, none, none⟩

theorem twelve_is_kept : ForcesPoint twelve [0xff] ∧ CropsZeros twelve [0xff] := by
  obtain ⟨hforces, hcrops⟩ := float_text_kept_iff twelve (List.cons_ne_nil 0xff [])
  exact ⟨hforces.mpr (.inr rfl), hcrops.mpr rfl⟩

/-- 1e+05, 1.50 and 2.5. -/
def largeNumeral : Numeral := ⟨[1], by decide, none, some ⟨false, false, [0, 5], by decide⟩⟩
def longNumeral : Numeral := ⟨[1], by decide, some [5, 0], none⟩
def shortNumeral : Numeral := ⟨[2], by decide, some [5], none⟩

/-- The point replaces the letter and the sign is doubled; a zero stays; and a text
without one is left behind. -/
theorem float_texts_are_spoilt :
    forcdecpt (text "1e+05" ++ [0, 0xff]) = some (text "1.++05" ++ [0]) ∧
      ¬ ForcesPoint largeNumeral [0xff] ∧
      cropzeros (text "1.50" ++ [0, 0xff]) = some (text "1.50" ++ [0, 0xff]) ∧
      ¬ CropsZeros longNumeral [0xff] ∧
      cropzeros (text "2.5" ++ [0, 0xff]) = none ∧ ¬ CropsZeros shortNumeral [0xff] :=
  ⟨by decide, forcdecpt_exponent rfl rfl _, by decide, cropzeros_fraction rfl _, by decide,
    cropzeros_fraction rfl _⟩

end PosixRtos.Libc
