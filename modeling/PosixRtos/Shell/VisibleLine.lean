import PosixRtos.Shell.Keys

/-! What is shown and what is run. A submitted entry keeps its NUL among its
characters: when it is recalled, the NUL is not seen, but what is typed comes
behind it and the first backspace takes it away. -/
namespace PosixRtos.Shell

open PosixRtos.Library.ByteMemory PosixRtos.Library.Runs PosixRtos.Libc

/-- The device with the visible line, and for each Enter the line that was visible
and the string that `shell_cmd_find` examined, if it was called. -/
structure Screen where
  dev : ShellDev
  visible : List Byte
  submissions : List (List Byte × Option (List Byte))

def examined (events : List ShellEvent) : Option (List Byte) :=
  (finds events).head?.bind fun seen => seen.shellBuffer.map ShellDevBuff.line

/-- A text character is accepted where the entry is not full. -/
def accepts (dev : ShellDev) : Bool := dev.shellBuffer.any fun entry => !entry.isFull

def visibleAfter (dev dev' : ShellDev) (visible : List Byte) : Key → List Byte
  | .text ch => if accepts dev then visible ++ [ch] else visible
  | .backspace => visible.dropLast
  | .enter => []
  | .up | .down => (dev'.shellBuffer.map ShellDevBuff.shown).getD []
  | .other => visible

def screenStep (table : List ShellCmd) (s : Screen) (ch : Byte) : Option Screen := do
  let (dev, events) ← shellInput table s.dev ch
  let key := keyOf s.dev ch
  some
    { dev := dev
      visible := visibleAfter s.dev dev s.visible key
      submissions := s.submissions ++
        if key = .enter then [(s.visible, examined events)] else [] }

def Screen.start (priority : Nat) (ack : Byte) : Screen := ⟨zeroed priority ack, [], []⟩

/-- Every Enter has submitted what was visible. -/
def Screen.Faithful (s : Screen) : Prop :=
  ∀ submission ∈ s.submissions, submission.2 = some submission.1

/-- Enter comes with room for its NUL and with no character behind another one;
backspace takes away a character that is seen, if one is. -/
def ShellDevBuff.Plain (entry : ShellDevBuff) : Key → Prop
  | .enter => entry.isFull = false ∧ ∀ c ∈ entry.print.dropWhile (· ≠ 0), c = 0
  | .backspace => entry.print.getLast? ≠ some 0 ∨ entry.shown = []
  | .text _ | .up | .down | .other => True

instance (entry : ShellDevBuff) : ∀ key, Decidable (entry.Plain key)
  | .enter => inferInstanceAs (Decidable (_ ∧ _))
  | .backspace => inferInstanceAs (Decidable (_ ∨ _))
  | .text _ | .up | .down | .other => .isTrue trivial

def Screen.Plain (s : Screen) (ch : Byte) : Prop :=
  ∀ entry ∈ s.dev.shellBuffer, entry.Plain (keyOf s.dev ch)

instance (s : Screen) (ch : Byte) : Decidable (s.Plain ch) :=
  inferInstanceAs (Decidable (∀ entry ∈ s.dev.shellBuffer, _))

/-- The visible line is what the current entry shows. -/
structure Mirrors (s : Screen) : Prop where
  editing : Editing s.dev
  visible : ∀ entry ∈ s.dev.shellBuffer, s.visible = entry.shown
  faithful : s.Faithful

variable {s t : Screen} {entry entry' : ShellDevBuff} {ch : Byte} {table : List ShellCmd}
  {bytes : List Byte}

theorem filter_eq_lineOf (h : ∀ c ∈ bytes.dropWhile (· ≠ 0), c = 0) :
    bytes.filter (· ≠ 0) = lineOf bytes := by
  have hback : (bytes.dropWhile (· ≠ 0)).filter (· ≠ 0) = [] := by
    rw [List.filter_eq_nil_iff]
    intro c hc
    simp [h c hc]
  have hfront : (bytes.takeWhile (· ≠ 0)).filter (· ≠ 0) = bytes.takeWhile (· ≠ 0) := by
    rw [List.filter_eq_self]
    exact List.all_eq_true.mp List.all_takeWhile
  conv_lhs => rw [← List.takeWhile_append_dropWhile (p := (· ≠ 0)) (l := bytes)]
  rw [List.filter_append, hback, hfront, List.append_nil]
  rfl

theorem filter_dropLast (h : bytes.getLast? ≠ some 0 ∨ bytes.filter (· ≠ 0) = []) :
    bytes.dropLast.filter (· ≠ 0) = (bytes.filter (· ≠ 0)).dropLast := by
  rcases List.eq_nil_or_concat bytes with rfl | ⟨front, last, rfl⟩
  · rfl
  rw [List.concat_eq_append] at *
  rw [List.dropLast_concat, List.filter_append]
  rw [List.getLast?_concat, List.filter_append] at h
  by_cases hlast : last = 0
  · rcases h with hseen | hnone
    · exact absurd (congrArg some hlast) hseen
    · rw [hnone, (List.append_eq_nil_iff.mp hnone).1]
      rfl
  · rw [List.filter_cons_of_pos (by simpa using hlast), List.filter_nil, List.dropLast_concat]

/-- The string that Enter submits. -/
theorem examined_eq {events : List ShellEvent} {seen : ShellDev}
    (hinsert : entry.insertCh 0 = some entry') (hseen : seen.shellBuffer = some entry')
    (hfinds : finds events = [seen]) : examined events = some (lineOf entry.print) := by
  simp [examined, hfinds, hseen, insertCh_line hinsert]

/-- A key that submits nothing. -/
theorem Mirrors.keep (hm : Mirrors s) {dev' : ShellDev} {visible : List Byte}
    (hediting : Editing dev') (hentry : dev'.shellBuffer = some entry')
    (hvisible : visible = entry'.shown) : Mirrors ⟨dev', visible, s.submissions ++ []⟩ where
  editing := hediting
  visible := by
    intro other hother
    rw [hentry] at hother
    cases hother
    exact hvisible
  faithful := by
    intro submission hsubmission
    rw [List.append_nil] at hsubmission
    exact hm.faithful submission hsubmission

theorem Mirrors.step (hm : Mirrors s) (hplain : s.Plain ch)
    (hstep : screenStep table s ch = some t) : Mirrors t := by
  obtain ⟨dev', events, entry, hinput, hediting, hentry, heffect⟩ := hm.editing.effect table ch
  have hhead : s.dev.lines.headPoint < shellBufferNumMax := hm.editing.head
  have hoffset : entry.offset ≤ shellBufferLengthMax - 2 :=
    hm.editing.offsets entry (Vector.mem_of_getElem? hentry)
  have hvisible := hm.visible entry hentry
  have hkey := hplain entry hentry
  have haccepts : accepts s.dev = !entry.isFull := by simp [accepts, hentry]
  simp only [screenStep, hinput, Option.bind_eq_bind, Option.bind_some] at hstep
  cases hstep
  generalize keyOf s.dev ch = key at heffect hkey ⊢
  have hcurrent := dev'.shellBuffer_eq
  generalize dev'.lines = lines at heffect hcurrent
  have hsame : s.dev.lines.current = some entry := hentry
  cases heffect with
  | other => exact hm.keep hediting (hcurrent.trans hsame) hvisible
  | fullText hfull =>
    refine hm.keep hediting (hcurrent.trans hsame) ?_
    rw [visibleAfter, haccepts, hfull]
    exact hvisible
  | text hfull hch hinsert =>
    refine hm.keep hediting (hcurrent.trans (Lines.current_put hhead _)) ?_
    rw [visibleAfter, haccepts, hfull, hvisible, ShellDevBuff.shown, ShellDevBuff.shown,
      (insertCh_print hinsert).1, List.filter_append,
      List.filter_cons_of_pos (by simpa using hch)]
    rfl
  | emptyBackspace hempty =>
    refine hm.keep hediting (hcurrent.trans hsame) ?_
    rw [visibleAfter, hvisible, ShellDevBuff.shown, (print_eq_nil_iff hoffset).mpr hempty]
    rfl
  | backspace hempty =>
    refine hm.keep hediting (hcurrent.trans (Lines.current_put hhead _)) ?_
    rw [visibleAfter, hvisible, ShellDevBuff.shown, ShellDevBuff.shown, deleteCh_print hoffset,
      filter_dropLast hkey]
  | fullEnter hfull =>
    have hroom := hkey.1
    rw [hfull] at hroom
    cases hroom
  | enter hfull hinsert hseen hfinds =>
    refine ⟨hediting, ?_, ?_⟩
    · intro other hother
      rw [hcurrent, Lines.current_submit] at hother
      cases hother
      rfl
    · intro submission hsubmission
      rcases List.mem_append.mp hsubmission with hold | hnew
      · exact hm.faithful submission hold
      · rw [if_pos rfl, List.mem_singleton] at hnew
        rw [hnew, examined_eq hinsert hseen hfinds, hvisible, ShellDevBuff.shown,
          filter_eq_lineOf hkey.2]
  | up hother =>
    refine hm.keep hediting (hcurrent.trans hother) ?_
    rw [visibleAfter, hcurrent, hother]
    rfl
  | down hother =>
    refine hm.keep hediting (hcurrent.trans hother) ?_
    rw [visibleAfter, hcurrent, hother]
    rfl

/-- In every run in which Enter and backspace do not meet a NUL, each Enter has run
what was shown; no key is stuck. -/
theorem shown_is_run (table : List ShellCmd) {priority : Nat}
    (hpriority : priority < usrLog.length) (ack : Byte)
    (hrun : Reaches (screenStep table) Screen.Plain (Screen.start priority ack) s) :
    s.Faithful ∧ ∀ ch, ∃ t, screenStep table s ch = some t := by
  have hmirrors : Mirrors s := by
    apply hrun.invariant Mirrors
    · refine ⟨zeroed_editing hpriority ack, ?_, ?_⟩
      · intro entry hentry
        have hempty : emptyEntry = entry := Option.some.inj hentry
        rw [← hempty]
        rfl
      · intro submission hsubmission
        cases hsubmission
    · intro s ch t hm hplain hstep
      exact hm.step hplain hstep
  refine ⟨hmirrors.faithful, fun ch => ?_⟩
  obtain ⟨dev', events, entry, hinput, -⟩ := hmirrors.editing.effect table ch
  exact ⟨_, by simp only [screenStep, hinput, Option.bind_eq_bind, Option.bind_some]; rfl⟩

def upKey : List Byte := [keyboardExpandHead, keyboardExpandType, keyboardExpandUp]

theorem recalled_is_run :
    ∃ s, runInputs (screenStep [helpCmd]) Screen.Plain (text "help" ++ [0x0d] ++ upKey ++ [0x0d])
        (Screen.start 1 1) = some s ∧
      s.submissions.map Prod.fst = [text "help", text "help"] ∧ s.Faithful := by
  have hrun : (runInputs (screenStep [helpCmd]) Screen.Plain
      (text "help" ++ [0x0d] ++ upKey ++ [0x0d]) (Screen.start 1 1)).map
        (fun s => s.submissions.map Prod.fst) = some [text "help", text "help"] := by
    decide +kernel
  obtain ⟨s, hs, hlines⟩ := Option.map_eq_some_iff.mp hrun
  have hlog : 1 < usrLog.length := by decide
  exact ⟨s, hs, hlines, (shown_is_run [helpCmd] hlog 1 (.of_runInputs hs)).1⟩

/-- What is typed behind a recalled line is shown and not run, and Enter on a full
line submits nothing. -/
theorem recalled_and_full_lines_differ :
    (∃ s, Reaches (screenStep [helpCmd]) anyStep (Screen.start 1 1) s ∧
      s.submissions.getLast? = some (text "helps", some (text "help"))) ∧
    ∃ s, Reaches (screenStep [helpCmd]) anyStep (Screen.start 1 1) s ∧
      s.submissions = [(List.replicate 62 (ascii 'a'), none)] := by
  constructor
  · have hrun : (runInputs (screenStep [helpCmd]) anyStep
        (text "help" ++ [0x0d] ++ upKey ++ text "s" ++ [0x0d]) (Screen.start 1 1)).map
          (fun s => s.submissions.getLast?) = some (some (text "helps", some (text "help"))) := by
      decide +kernel
    obtain ⟨s, hs, hlast⟩ := Option.map_eq_some_iff.mp hrun
    exact ⟨s, .of_runInputs hs, hlast⟩
  · have hrun : (runInputs (screenStep [helpCmd]) anyStep
        (List.replicate 62 (ascii 'a') ++ [0x0d]) (Screen.start 1 1)).map Screen.submissions =
          some [(List.replicate 62 (ascii 'a'), none)] := by decide +kernel
    obtain ⟨s, hs, hlast⟩ := Option.map_eq_some_iff.mp hrun
    exact ⟨s, .of_runInputs hs, hlast⟩

end PosixRtos.Shell
