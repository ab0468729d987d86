import PosixRtos.Shell.Commands

/-! What each key does to the lines of the editor, in one relation from which the
invariants of a stream of keys are derived. -/
namespace PosixRtos.Shell

open PosixRtos.Library.ByteMemory PosixRtos.Libc

inductive Key where
  | text (ch : Byte)
  | backspace
  | enter
  | up
  | down
  | other
deriving DecidableEq

/-- The key that a character completes. -/
def keyOf (dev : ShellDev) (ch : Byte) : Key :=
  match (shellRecvKeybaordExpand dev ch).2 with
  | .direction =>
      if keyboardExpandUp = ch then .up else if keyboardExpandDown = ch then .down else .other
  | .expandHead | .expandType => .other
  | .nomal =>
      match chClassify ch with
      | some .text => .text ch
      | some .backspace => .backspace
      | some .enter => .enter
      | none => .other

/-- The characters that a print of the entry shows; a NUL shows nothing. -/
def ShellDevBuff.shown (entry : ShellDevBuff) : List Byte := entry.print.filter (· ≠ 0)

/-- The part of a device that the keys change, but for the state of the decoder. -/
structure Lines where
  buffer : Vector ShellDevBuff shellBufferNumMax
  tailPoint : Nat
  headPoint : Nat
  historyPoint : Nat

def ShellDev.lines (dev : ShellDev) : Lines :=
  ⟨dev.buffer, dev.tailPoint, dev.headPoint, dev.historyPoint⟩

def Lines.current (l : Lines) : Option ShellDevBuff := l.buffer[l.headPoint]?

def Lines.put (l : Lines) (entry : ShellDevBuff) : Lines :=
  { l with buffer := l.buffer.setIfInBounds l.headPoint entry }

/-- After Enter. -/
def Lines.submit (l : Lines) (next : ShellDevBuff) : Lines :=
  let head := (l.headPoint + 1) % shellBufferNumMax
  { buffer := l.buffer.setIfInBounds head next.clearLast
    tailPoint := if head = l.tailPoint then (l.tailPoint + 1) % shellBufferNumMax
      else l.tailPoint
    headPoint := head
    historyPoint := head }

def Lines.older (l : Lines) : Lines :=
  if l.headPoint ≠ l.tailPoint then
    { l with headPoint := if l.headPoint ≠ 0 then l.headPoint - 1 else shellBufferNumMax - 1 }
  else l

def Lines.newer (l : Lines) : Lines :=
  if l.historyPoint ≠ l.headPoint then
    { l with headPoint := (l.headPoint + 1) % shellBufferNumMax }
  else l

/-- The devices on which `shell_cmd_find` was called. -/
def finds (events : List ShellEvent) : List ShellDev :=
  events.filterMap fun
    | .find dev => some dev
    | _ => none

/-- What a key does to the lines, where `entry` is the current one. -/
inductive Effect (l : Lines) (entry : ShellDevBuff) : Key → Lines → List ShellEvent → Prop where
  | other : Effect l entry .other l []
  | fullText {ch : Byte} : entry.isFull = true → Effect l entry (.text ch) l []
  | text {ch : Byte} {entry' : ShellDevBuff} {events : List ShellEvent} :
      entry.isFull = false → ch ≠ 0 → entry.insertCh ch = some entry' → finds events = [] →
        Effect l entry (.text ch) (l.put entry') events
  | emptyBackspace : entry.isEmpty = true → Effect l entry .backspace l []
  | backspace {events : List ShellEvent} : entry.isEmpty = false → finds events = [] →
      Effect l entry .backspace (l.put entry.deleteCh) events
  | fullEnter : entry.isFull = true → Effect l entry .enter l []
  | enter {entry' next : ShellDevBuff} {seen : ShellDev} {events : List ShellEvent} :
      entry.isFull = false → entry.insertCh 0 = some entry' → seen.shellBuffer = some entry' →
        finds events = [seen] → Effect l entry .enter ((l.put entry').submit next) events
  | up {other : ShellDevBuff} {prompt : List Byte} : l.older.current = some other →
      Effect l entry .up l.older [.write [0x0d, 0], .write prompt, .write other.print]
  | down {other : ShellDevBuff} {prompt : List Byte} : l.newer.current = some other →
      Effect l entry .down l.newer [.write [0x0d, 0], .write prompt, .write other.print]

variable {dev dev' : ShellDev} {entry entry' : ShellDevBuff} {ch : Byte} {table : List ShellCmd}

theorem ShellDev.shellBuffer_eq (dev : ShellDev) : dev.shellBuffer = dev.lines.current := rfl

theorem setBuffer_lines (h : dev.setBuffer entry = some dev') :
    dev'.lines = dev.lines.put entry ∧ dev'.ack = dev.ack := by
  unfold ShellDev.setBuffer at h
  split at h
  next hlt =>
    cases h
    refine ⟨?_, rfl⟩
    simp [ShellDev.lines, Lines.put, Vector.setIfInBounds, Vector.set, Array.setIfInBounds, hlt]
  next => cases h

theorem finds_echo (dev : ShellDev) (bytes : List Byte) : finds (dev.echo bytes) = [] := by
  unfold ShellDev.echo
  split <;> rfl

variable {events : List ShellEvent}

theorem shellText_effect (hentry : dev.shellBuffer = some entry) (hch : ch ≠ 0)
    (h : shellText dev ch = some (dev', events)) :
    Effect dev.lines entry (.text ch) dev'.lines events := by
  simp only [shellText, hentry, Option.bind_eq_bind, Option.bind_some] at h
  split at h
  next hfull =>
    cases h
    exact .fullText hfull
  next hfull =>
    obtain ⟨entry', hinsert, h⟩ := Option.bind_eq_some_iff.mp h
    obtain ⟨dev'', hset, h⟩ := Option.bind_eq_some_iff.mp h
    cases h
    rw [(setBuffer_lines hset).1]
    exact .text (Bool.eq_false_of_not_eq_true hfull) hch hinsert (finds_echo _ _)

theorem shellBackspace_effect (hentry : dev.shellBuffer = some entry)
    (h : shellBackspace dev = some (dev', events)) :
    Effect dev.lines entry .backspace dev'.lines events := by
  simp only [shellBackspace, hentry, Option.bind_eq_bind, Option.bind_some] at h
  split at h
  next hempty =>
    cases h
    exact .emptyBackspace hempty
  next hempty =>
    obtain ⟨dev'', hset, h⟩ := Option.bind_eq_some_iff.mp h
    cases h
    rw [(setBuffer_lines hset).1]
    exact .backspace (Bool.eq_false_of_not_eq_true hempty) (finds_echo _ _)

theorem shellEnter_effect (he : Editing dev) (hentry : dev.shellBuffer = some entry)
    (h : shellEnter table dev = some (dev', events)) :
    Effect dev.lines entry .enter dev'.lines events := by
  simp only [shellEnter, hentry, Option.bind_eq_bind, Option.bind_some] at h
  split at h
  next hfull =>
    cases h
    exact .fullEnter hfull
  next hfull =>
    obtain ⟨entry', hinsert, h⟩ := Option.bind_eq_some_iff.mp h
    obtain ⟨seen, hset, h⟩ := Option.bind_eq_some_iff.mp h
    obtain ⟨found, -, h⟩ := Option.bind_eq_some_iff.mp h
    obtain ⟨prompt, -, h⟩ := Option.bind_eq_some_iff.mp h
    obtain ⟨next, hnext, h⟩ := Option.bind_eq_some_iff.mp h
    obtain ⟨after, hafter, h⟩ := Option.bind_eq_some_iff.mp h
    cases h
    have hseen := (setBuffer_lines hset).1
    have hlines : dev'.lines = (dev.lines.put entry').submit next := by
      rw [(setBuffer_lines hafter).1, ← hseen]
      rfl
    have hcurrent : seen.shellBuffer = some entry' := by
      rw [ShellDev.shellBuffer_eq, hseen]
      simp [Lines.current, Lines.put, ShellDev.lines, he.head]
    rw [hlines]
    refine .enter (Bool.eq_false_of_not_eq_true hfull) hinsert hcurrent ?_
    simp [finds, List.filterMap_append, List.filterMap_map]

theorem older_lines (dev : ShellDev) :
    (shellBufferCurrentPointSub dev).lines = dev.lines.older :=
  apply_ite ShellDev.lines _ _ _

theorem newer_lines (dev : ShellDev) :
    (shellBufferCurrentPointInc dev).lines = dev.lines.newer :=
  apply_ite ShellDev.lines _ _ _

theorem shellDirection_effect (h : shellDirection dev ch = some (dev', events)) :
    Effect dev.lines entry (if keyboardExpandUp = ch then .up
      else if keyboardExpandDown = ch then .down else .other) dev'.lines events := by
  unfold shellDirection at h
  by_cases hup : keyboardExpandUp = ch
  · simp only [hup, true_or, if_true] at h ⊢
    obtain ⟨prompt, -, h⟩ := Option.bind_eq_some_iff.mp h
    obtain ⟨other, hother, h⟩ := Option.bind_eq_some_iff.mp h
    cases h
    rw [ShellDev.shellBuffer_eq, older_lines] at hother
    rw [older_lines]
    exact .up hother
  by_cases hdown : keyboardExpandDown = ch
  · simp only [hup, hdown, or_true, if_true, if_false] at h ⊢
    obtain ⟨prompt, -, h⟩ := Option.bind_eq_some_iff.mp h
    obtain ⟨other, hother, h⟩ := Option.bind_eq_some_iff.mp h
    cases h
    rw [ShellDev.shellBuffer_eq, newer_lines] at hother
    rw [newer_lines]
    exact .down hother
  · simp only [hup, hdown, or_self, if_false] at h ⊢
    cases h
    exact .other

theorem keyboard_lines (dev : ShellDev) (ch : Byte) :
    (shellRecvKeybaordExpand dev ch).1.lines = dev.lines := by
  unfold shellRecvKeybaordExpand
  dsimp only
  split_ifs <;> rfl

theorem text_ne_zero (h : chClassify ch = some .text) : ch ≠ 0 := by
  rintro rfl
  revert h
  decide

/-- A turn of the loop is defined and has the effect of its key. -/
theorem Editing.effect (he : Editing dev) (table : List ShellCmd) (ch : Byte) :
    ∃ dev' events entry, shellInput table dev ch = some (dev', events) ∧ Editing dev' ∧
      dev.shellBuffer = some entry ∧
      Effect dev.lines entry (keyOf dev ch) dev'.lines events := by
  obtain ⟨dev', events, hinput, he', -⟩ := he.input table ch
  obtain ⟨entry, hentry, -⟩ := he.current
  refine ⟨dev', events, entry, hinput, he', hentry, ?_⟩
  have hkey := he.keyboard ch
  have hlines := keyboard_lines dev ch
  unfold shellInput at hinput
  unfold keyOf
  generalize shellRecvKeybaordExpand dev ch = key at hinput hkey hlines ⊢
  obtain ⟨dev₁, input⟩ := key
  dsimp only at hinput hkey hlines ⊢
  rw [ShellDev.shellBuffer_eq, ← hlines, ← ShellDev.shellBuffer_eq] at hentry
  rw [← hlines]
  cases input with
  | direction => exact shellDirection_effect hinput
  | expandHead | expandType =>
    cases hinput
    exact .other
  | nomal =>
    dsimp only at hinput ⊢
    generalize hclass : chClassify ch = cls at hinput ⊢
    rcases cls with - | cls
    · cases hinput
      exact .other
    cases cls with
    | text => exact shellText_effect hentry (text_ne_zero hclass) hinput
    | backspace => exact shellBackspace_effect hentry hinput
    | enter => exact shellEnter_effect hkey hentry hinput

/-! The characters of an entry. -/

theorem insertCh_print (h : entry.insertCh ch = some entry') :
    entry'.print = entry.print ++ [ch] ∧
      ∃ rest, entry'.data.toList = entry.print ++ ch :: rest := by
  unfold ShellDevBuff.insertCh at h
  split at h
  next hlt =>
    cases h
    have hlength : entry.offset < entry.data.toList.length := by
      rw [Vector.length_toList]
      exact hlt
    have hdata : (entry.data.set entry.offset ch hlt).toList =
        entry.print ++ ch :: entry.data.toList.drop (entry.offset + 1) := by
      rw [Vector.toList_set, List.set_eq_take_append_cons_drop, if_pos hlength]
      rfl
    have hprint : entry.print.length = entry.offset :=
      List.length_take_of_le hlength.le
    refine ⟨?_, _, hdata⟩
    rw [ShellDevBuff.print, hdata]
    dsimp only
    rw [List.take_append, hprint, Nat.add_sub_cancel_left, List.take_of_length_le (by omega)]
    rfl
  next => cases h

theorem deleteCh_print (hoffset : entry.offset ≤ shellBufferLengthMax - 2) :
    entry.deleteCh.print = entry.print.dropLast := by
  have hlength : entry.offset < entry.data.toList.length := by
    rw [Vector.length_toList]
    unfold shellBufferLengthMax at *
    omega
  exact (List.dropLast_take hlength).symm

theorem print_eq_nil_iff (hoffset : entry.offset ≤ shellBufferLengthMax - 2) :
    entry.print = [] ↔ entry.isEmpty = true := by
  have hlength : entry.print.length = entry.offset := by
    rw [ShellDevBuff.print, List.length_take, Vector.length_toList]
    unfold shellBufferLengthMax at *
    omega
  rw [← List.length_eq_zero_iff, hlength, ShellDevBuff.isEmpty, decide_eq_true_eq, eq_comm]

/-- The string that ends at the NUL which Enter has inserted. -/
theorem insertCh_line (h : entry.insertCh 0 = some entry') : entry'.line = lineOf entry.print := by
  obtain ⟨-, rest, hdata⟩ := insertCh_print h
  rw [ShellDevBuff.line, hdata, lineOf, lineOf, List.takeWhile_append]
  split
  next hall =>
    rw [List.takeWhile_cons_of_neg (by simp), List.append_nil,
      (List.takeWhile_prefix _).eq_of_length hall]
  next => rfl

theorem Lines.current_put {l : Lines} (hhead : l.headPoint < shellBufferNumMax)
    (entry : ShellDevBuff) : (l.put entry).current = some entry := by
  simp [Lines.current, Lines.put, hhead]

theorem Lines.current_submit (l : Lines) (next : ShellDevBuff) :
    (l.submit next).current = some next.clearLast := by
  have hlt : (l.headPoint + 1) % shellBufferNumMax < shellBufferNumMax :=
    Nat.mod_lt _ (by decide)
  simp [Lines.current, Lines.submit, hlt]

end PosixRtos.Shell
