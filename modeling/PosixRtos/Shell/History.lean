import Mathlib.Data.List.TakeWhile
import PosixRtos.Library.RingBuffer
import PosixRtos.Shell.VisibleLine

/-! The history of submitted lines. The entries from `tail_point` to the one before
`history_point` hold the last seven of them, as long as a recalled entry is only
looked at: Enter makes the entry behind the current one the fresh one, and the
lines that were newer than it are lost. -/
namespace PosixRtos.Shell

open PosixRtos.Library.ByteMemory PosixRtos.Library.Runs PosixRtos.Library.RingBuffer PosixRtos.Libc

/-- The lines that `shell_cmd_find` was called on, in order. -/
def submittedLines (events : List ShellEvent) : List (List Byte) :=
  (finds events).filterMap fun seen => seen.shellBuffer.map ShellDevBuff.line

/-- The characters that are seen of the last write. -/
def lastShown (events : List ShellEvent) : Option (List Byte) :=
  match events.getLast? with
  | some (.write bytes) => some (bytes.filter (· ≠ 0))
  | _ => none

/-- The key changes nothing that the entry shows. -/
def ShellDevBuff.Untouched (entry : ShellDevBuff) : Key → Prop
  | .text _ | .enter => entry.isFull = true
  | .backspace => entry.print.getLast? = some 0 ∨ entry.isEmpty = true
  | .up | .down | .other => True

instance (entry : ShellDevBuff) : ∀ key, Decidable (entry.Untouched key)
  | .text _ | .enter => inferInstanceAs (Decidable (_ = _))
  | .backspace => inferInstanceAs (Decidable (_ ∨ _))
  | .up | .down | .other => .isTrue trivial

/-- The fresh entry is the current one, or the key does not touch the recalled one. -/
def Session.Undisturbed (s : Session) (ch : Byte) : Prop :=
  ∀ entry ∈ s.dev.shellBuffer,
    s.dev.headPoint = s.dev.historyPoint ∨ entry.Untouched (keyOf s.dev ch)

instance (s : Session) (ch : Byte) : Decidable (s.Undisturbed ch) :=
  inferInstanceAs (Decidable (∀ entry ∈ s.dev.shellBuffer, _))

/-- What the entries of a device show. -/
def Lines.cells (l : Lines) (j : Nat) : Option (List Byte) :=
  l.buffer[j]?.map ShellDevBuff.shown

/-- The lines for which there are entries beside the fresh one. -/
def recent (lines : List (List Byte)) : List (List Byte) :=
  lines.drop (lines.length - (shellBufferNumMax - 1))

/-- The ring holds the recent lines and behind them the one being typed. -/
structure Recalls (l : Lines) (lines : List (List Byte)) : Prop where
  history : l.historyPoint = (l.tailPoint + (recent lines).length) % shellBufferNumMax
  fresh : ∀ entry ∈ l.buffer[l.historyPoint]?, 0 ∉ entry.print
  holds : ∃ typed, Occupies shellBufferNumMax l.tailPoint l.cells (recent lines ++ [typed])

variable {l : Lines} {lines : List (List Byte)} {line : List Byte} {entry entry' : ShellDevBuff}

theorem recent_length (lines : List (List Byte)) :
    (recent lines).length = min lines.length (shellBufferNumMax - 1) := by
  rw [recent, List.length_drop]
  omega

theorem recent_room (lines : List (List Byte)) : (recent lines).length < shellBufferNumMax := by
  rw [recent_length]
  exact (min_le_right _ _).trans_lt (by decide)

/-- The oldest line goes where there are seven. -/
theorem recent_concat (lines : List (List Byte)) (line : List Byte) :
    recent (lines ++ [line]) =
      (if (recent lines).length = shellBufferNumMax - 1 then (recent lines).tail
        else recent lines) ++ [line] := by
  have hlength : (recent lines).length = min lines.length (shellBufferNumMax - 1) :=
    recent_length lines
  unfold recent at *
  unfold shellBufferNumMax at *
  rw [List.length_append, List.length_singleton, List.drop_append_of_le_length (by omega),
    List.tail_drop]
  split
  next h =>
    congr 2
    omega
  next h =>
    congr 2
    omega

theorem Lines.cells_put (l : Lines) (entry : ShellDevBuff) {j : Nat} (hj : j ≠ l.headPoint) :
    (l.put entry).cells j = l.cells j := by
  unfold Lines.cells Lines.put
  rw [Vector.getElem?_setIfInBounds_ne hj.symm]

theorem Lines.cells_put_self (hhead : l.headPoint < shellBufferNumMax) (entry : ShellDevBuff) :
    (l.put entry).cells l.headPoint = some entry.shown := by
  unfold Lines.cells Lines.put
  rw [Vector.getElem?_setIfInBounds_self_of_lt hhead]
  rfl

/-- The fresh entry is overwritten. -/
theorem Recalls.put_fresh (h : Recalls l lines) (hhead : l.headPoint < shellBufferNumMax)
    (hfresh : l.headPoint = l.historyPoint) (hentry : 0 ∉ entry.print) :
    Recalls (l.put entry) lines where
  history := h.history
  fresh := by
    intro other hother
    have hsame : (l.put entry).current = some other := by
      rw [Lines.current]
      exact hfresh ▸ hother
    rw [Lines.current_put hhead] at hsame
    cases hsame
    exact hentry
  holds := by
    obtain ⟨typed, hring⟩ := h.holds
    have hlast : l.headPoint = (l.tailPoint + (recent lines).length) % shellBufferNumMax :=
      hfresh.trans h.history
    refine ⟨entry.shown, hring.overwrite ?_ ?_⟩
    · intro j hj hne
      exact l.cells_put entry (hlast ▸ hne)
    · rw [← hlast]
      exact Lines.cells_put_self hhead entry

/-- The current entry shows the same as before. -/
theorem Lines.cells_put_shown (hcurrent : l.current = some entry)
    (hshown : entry'.shown = entry.shown) : (l.put entry').cells = l.cells := by
  have hhead : l.headPoint < shellBufferNumMax := by
    by_contra hge
    rw [Lines.current, Vector.getElem?_eq_none (not_lt.mp hge)] at hcurrent
    cases hcurrent
  funext j
  by_cases hj : j = l.headPoint
  · subst hj
    rw [Lines.cells_put_self hhead, hshown, Lines.cells]
    exact congrArg (Option.map ShellDevBuff.shown) hcurrent.symm
  · exact l.cells_put entry' hj

theorem Recalls.put_shown (h : Recalls l lines) (hcurrent : l.current = some entry)
    (hshown : entry'.shown = entry.shown) (hrecalled : l.headPoint ≠ l.historyPoint) :
    Recalls (l.put entry') lines where
  history := h.history
  fresh := by
    intro other hother
    have hsame : l.buffer[l.historyPoint]? = some other := by
      rw [← Vector.getElem?_setIfInBounds_ne hrecalled]
      exact hother
    exact h.fresh other hsame
  holds := by
    rw [Lines.cells_put_shown hcurrent hshown]
    exact h.holds

/-- Up and Down. -/
theorem Recalls.move (h : Recalls l lines) (head : Nat) :
    Recalls { l with headPoint := head } lines := ⟨h.history, h.fresh, h.holds⟩

theorem Recalls.older (h : Recalls l lines) : Recalls l.older lines := by
  unfold Lines.older
  split
  · exact h.move _
  · exact h

theorem Recalls.newer (h : Recalls l lines) : Recalls l.newer lines := by
  unfold Lines.newer
  split
  · exact h.move _
  · exact h

theorem shown_of_fresh (h : 0 ∉ entry.print) : entry.shown = entry.print := by
  rw [ShellDevBuff.shown, List.filter_eq_self]
  intro c hc
  simpa using fun hzero : c = 0 => h (hzero ▸ hc)

theorem lineOf_of_fresh (h : 0 ∉ entry.print) : lineOf entry.print = entry.print := by
  rw [lineOf, List.takeWhile_eq_self_iff]
  intro c hc
  simpa using fun hzero : c = 0 => h (hzero ▸ hc)

/-- What the fresh entry shows is the last element of the ring. -/
theorem Recalls.typed {typed : List Byte} (h : Recalls l lines)
    (hring : Occupies shellBufferNumMax l.tailPoint l.cells (recent lines ++ [typed]))
    (hfresh : l.headPoint = l.historyPoint) (hcurrent : l.current = some entry) :
    typed = entry.shown := by
  have hlast := hring.cells (recent lines).length (by simp)
  rw [← h.history, ← hfresh, List.getElem?_concat_length, Lines.cells] at hlast
  have hshown := congrArg (Option.map ShellDevBuff.shown) hcurrent
  exact Option.some.inj (hlast.symm.trans hshown)

theorem Lines.cells_submit (l : Lines) (next : ShellDevBuff) {j : Nat}
    (hj : j ≠ (l.headPoint + 1) % shellBufferNumMax) : (l.submit next).cells j = l.cells j := by
  unfold Lines.cells Lines.submit
  dsimp only
  rw [Vector.getElem?_setIfInBounds_ne hj.symm]

/-- The entry that becomes the fresh one is behind the others. -/
theorem Recalls.submitted {l' : Lines}
    (hring : Occupies shellBufferNumMax l'.tailPoint l.cells (recent lines))
    (hkept : (recent lines).length < shellBufferNumMax)
    (hhead : l'.headPoint = (l'.tailPoint + (recent lines).length) % shellBufferNumMax)
    (hhistory : l'.historyPoint = l'.headPoint) (hcurrent : l'.current = some entry)
    (hempty : entry.print = []) (hcells : ∀ j, j ≠ l'.headPoint → l'.cells j = l.cells j) :
    Recalls l' lines where
  history := hhistory.trans hhead
  fresh := by
    intro other hother
    have hsame : l'.current = some other := by
      rw [Lines.current]
      exact hhistory ▸ hother
    rw [hcurrent] at hsame
    cases hsame
    simp [hempty]
  holds := by
    have hstored : Occupies shellBufferNumMax l'.tailPoint l'.cells (recent lines) := by
      apply hring.store hkept
      intro j _ hne
      exact hcells j (hhead ▸ hne)
    refine ⟨entry.shown, hstored.push hkept ?_⟩
    rw [← hhead]
    exact congrArg (Option.map ShellDevBuff.shown) hcurrent

/-- Enter on the fresh entry, which shows the same with its NUL. -/
theorem Recalls.submit (h : Recalls l lines) (hediting : l.tailPoint < shellBufferNumMax)
    (hfresh : l.headPoint = l.historyPoint) (hcurrent : l.current = some entry)
    (hshown : entry'.shown = entry.shown) (next : ShellDevBuff) :
    Recalls ((l.put entry').submit next) (lines ++ [entry.shown]) := by
  obtain ⟨typed, hring⟩ := h.holds
  have htyped := h.typed hring hfresh hcurrent
  rw [htyped] at hring
  have hroom := recent_room lines
  have hhead : l.headPoint = (l.tailPoint + (recent lines).length) % shellBufferNumMax :=
    hfresh.trans h.history
  have hnext : (l.headPoint + 1) % shellBufferNumMax =
      (l.tailPoint + ((recent lines).length + 1)) % shellBufferNumMax := by
    rw [hhead, Nat.mod_add_mod, Nat.add_assoc]
  have hrecent := recent_concat lines entry.shown
  have hcells : ∀ j, j ≠ ((l.put entry').submit next).headPoint →
      ((l.put entry').submit next).cells j = l.cells j := by
    intro j hj
    rw [(l.put entry').cells_submit next hj, Lines.cells_put_shown hcurrent hshown]
  by_cases hfull : (recent lines).length = shellBufferNumMax - 1
  · -- the ring is full: the oldest line makes room
    have hwrap : (l.headPoint + 1) % shellBufferNumMax = l.tailPoint := by
      rw [hnext, hfull]
      exact (Nat.add_mod_right _ _).trans (Nat.mod_eq_of_lt hediting)
    have htail : ((l.put entry').submit next).tailPoint = (l.tailPoint + 1) % shellBufferNumMax :=
      if_pos hwrap
    rw [if_pos hfull] at hrecent
    cases hlines : recent lines with
    | nil =>
      rw [hlines] at hfull
      cases hfull
    | cons oldest rest =>
      rw [hlines] at hrecent hfull
      rw [hlines, List.cons_append] at hring
      have hlength : (recent (lines ++ [entry.shown])).length = shellBufferNumMax - 1 := by
        rw [hrecent]
        simpa using hfull
      have hpopped := hring.pop
      rw [List.tail_cons] at hrecent
      rw [← hrecent, ← htail] at hpopped
      refine Recalls.submitted hpopped (recent_room _) ?_ rfl
        ((l.put entry').current_submit next) rfl hcells
      rw [htail, hlength, Nat.mod_add_mod, Nat.add_assoc]
      exact hwrap.trans ((Nat.add_mod_right _ _).trans (Nat.mod_eq_of_lt hediting)).symm
  · have hmore : (l.headPoint + 1) % shellBufferNumMax ≠ l.tailPoint := by
      rw [hnext]
      unfold shellBufferNumMax at *
      omega
    have htail : ((l.put entry').submit next).tailPoint = l.tailPoint := if_neg hmore
    rw [if_neg hfull] at hrecent
    rw [← hrecent, ← htail] at hring
    refine Recalls.submitted hring (recent_room _) ?_ rfl
      ((l.put entry').current_submit next) rfl hcells
    rw [htail, hrecent, List.length_append, List.length_singleton]
    exact hnext

/-! One key. -/

variable {s t : Session} {ch : Byte} {table : List ShellCmd} {events : List ShellEvent}

structure Remembers (s : Session) : Prop where
  editing : Editing s.dev
  recalls : Recalls s.dev.lines (submittedLines s.events)

theorem submittedLines_append (old events : List ShellEvent) :
    submittedLines (old ++ events) = submittedLines old ++ submittedLines events := by
  simp [submittedLines, finds, List.filterMap_append]

/-- Taking a NUL away is not seen. -/
theorem deleteCh_shown (hoffset : entry.offset ≤ shellBufferLengthMax - 2)
    (hlast : entry.print.getLast? = some 0) : entry.deleteCh.shown = entry.shown := by
  obtain ⟨front, hfront⟩ := List.getLast?_eq_some_iff.mp hlast
  rw [ShellDevBuff.shown, ShellDevBuff.shown, deleteCh_print hoffset, hfront,
    List.dropLast_concat, List.filter_append]
  exact (List.append_nil _).symm

theorem insertCh_shown (hinsert : entry.insertCh 0 = some entry') :
    entry'.shown = entry.shown := by
  rw [ShellDevBuff.shown, ShellDevBuff.shown, (insertCh_print hinsert).1, List.filter_append]
  exact List.append_nil _

theorem Recalls.effect {key : Key} (hrecalls : Recalls l lines)
    (htail : l.tailPoint < shellBufferNumMax) (hhead : l.headPoint < shellBufferNumMax)
    (hoffset : entry.offset ≤ shellBufferLengthMax - 2) (hcurrent : l.current = some entry)
    (hkey : l.headPoint = l.historyPoint ∨ entry.Untouched key) {l' : Lines}
    (heffect : Effect l entry key l' events) : Recalls l' (lines ++ submittedLines events) := by
  have hquiet : ∀ {l' : Lines}, finds events = [] → Recalls l' lines →
      Recalls l' (lines ++ submittedLines events) := by
    intro l' hnone h
    rw [submittedLines, hnone]
    exact (List.append_nil lines).symm ▸ h
  have hplain : l.headPoint = l.historyPoint → 0 ∉ entry.print := fun hfresh =>
    hrecalls.fresh entry (hfresh ▸ hcurrent)
  cases heffect with
  | other | fullText | emptyBackspace | fullEnter => exact hquiet rfl hrecalls
  | text hfull hch hinsert hnone =>
    rcases hkey with hfresh | hsame
    · refine hquiet hnone (hrecalls.put_fresh hhead hfresh ?_)
      rw [(insertCh_print hinsert).1, List.mem_append, List.mem_singleton, not_or]
      exact ⟨hplain hfresh, hch.symm⟩
    · rw [ShellDevBuff.Untouched, hfull] at hsame
      cases hsame
  | backspace hempty hnone =>
    by_cases hfresh : l.headPoint = l.historyPoint
    · refine hquiet hnone (hrecalls.put_fresh hhead hfresh ?_)
      rw [deleteCh_print hoffset]
      exact fun hzero => hplain hfresh (List.mem_of_mem_dropLast hzero)
    · rcases hkey.resolve_left hfresh with hlast | hnil
      · exact hquiet hnone (hrecalls.put_shown hcurrent (deleteCh_shown hoffset hlast) hfresh)
      · rw [hempty] at hnil
        cases hnil
  | enter hfull hinsert hseen hfinds =>
    rcases hkey with hfresh | hsame
    swap
    · rw [ShellDevBuff.Untouched, hfull] at hsame
      cases hsame
    have hline : submittedLines events = [entry.shown] := by
      rw [submittedLines, hfinds]
      simp [hseen, insertCh_line hinsert, shown_of_fresh (hplain hfresh),
        lineOf_of_fresh (hplain hfresh)]
    rw [hline]
    exact hrecalls.submit htail hfresh hcurrent (insertCh_shown hinsert) _
  | up hother => exact hquiet rfl hrecalls.older
  | down hother => exact hquiet rfl hrecalls.newer

theorem Remembers.step (h : Remembers s) (hok : s.Undisturbed ch)
    (hstep : sessionStep table s ch = some t) : Remembers t := by
  obtain ⟨dev', events, entry, hinput, hediting, hentry, heffect⟩ := h.editing.effect table ch
  simp only [sessionStep, hinput, Option.bind_eq_bind, Option.bind_some] at hstep
  cases hstep
  refine ⟨hediting, ?_⟩
  rw [submittedLines_append]
  have hoffset := h.editing.offsets entry (Vector.mem_of_getElem? hentry)
  exact h.recalls.effect h.editing.tail h.editing.head hoffset hentry (hok entry hentry) heffect

theorem zeroed_remembers {priority : Nat} (hpriority : priority < usrLog.length) (ack : Byte) :
    Remembers ⟨zeroed priority ack, []⟩ where
  editing := zeroed_editing hpriority ack
  recalls := by
    have hzero : 0 < shellBufferNumMax := by decide
    refine ⟨rfl, ?_, [], (Occupies.nil hzero).push hzero rfl⟩
    intro entry hentry
    have hempty : emptyEntry = entry := Option.some.inj hentry
    simp [← hempty, emptyEntry, ShellDevBuff.print]

/-! Looking back. -/

def downKey : List Byte := [keyboardExpandHead, keyboardExpandType, keyboardExpandDown]

def presses (k : Nat) (key : List Byte) : List Byte := (List.replicate k key).flatten

/-- The device with the entry `j` behind the oldest one as the current one. -/
def ShellDev.lookAt (dev : ShellDev) (j : Nat) : ShellDev :=
  { dev with headPoint := (dev.tailPoint + j) % shellBufferNumMax }

variable {dev dev' : ShellDev} {k m : Nat}

theorem currentPointSub_lookAt {j : Nat} (hj : j + 1 < shellBufferNumMax) :
    shellBufferCurrentPointSub (dev.lookAt (j + 1)) = dev.lookAt j := by
  unfold shellBufferCurrentPointSub ShellDev.lookAt
  unfold shellBufferNumMax at *
  dsimp only
  rw [if_pos (by omega)]
  congr 1
  split <;> omega

theorem currentPointInc_lookAt {j : Nat}
    (hhistory : dev.historyPoint = (dev.tailPoint + m) % shellBufferNumMax)
    (hm : m < shellBufferNumMax) (hj : j < m) :
    shellBufferCurrentPointInc (dev.lookAt j) = dev.lookAt (j + 1) := by
  unfold shellBufferCurrentPointInc ShellDev.lookAt
  unfold shellBufferNumMax at *
  dsimp only
  rw [if_pos (by omega)]
  congr 1
  omega

/-- The three characters of an arrow key, where no key has been begun. -/
theorem run_arrow (table : List ShellCmd) (hstatus : dev.recvStatus = 0)
    (harrow : keyboardExpandUp = ch ∨ keyboardExpandDown = ch)
    (h : shellDirection dev ch = some (dev', events)) (old : List ShellEvent) :
    runInputs (sessionStep table) anyStep [keyboardExpandHead, keyboardExpandType, ch]
      ⟨dev, old⟩ = some ⟨dev', old ++ events⟩ := by
  have hdone : { dev with recvStatus := 0 } = dev := by rw [← hstatus]
  have hbegin : shellRecvKeybaordExpand dev keyboardExpandHead =
      ({ dev with recvStatus := keyboardExpandHead }, .expandHead) := by
    rw [shellRecvKeybaordExpand, if_pos hstatus, if_pos rfl]
  have hmiddle : shellRecvKeybaordExpand { dev with recvStatus := keyboardExpandHead }
      keyboardExpandType = ({ dev with recvStatus := keyboardExpandType }, .expandType) := rfl
  have hlast : shellRecvKeybaordExpand { dev with recvStatus := keyboardExpandType } ch =
      (dev, .direction) := by
    rw [shellRecvKeybaordExpand]
    dsimp only
    rw [hdone]
    rcases harrow with rfl | rfl
    · rfl
    · rfl
  simp [runInputs, anyStep, sessionStep, shellInput, hbegin, hmiddle, hlast, h]

/-- An arrow key from one entry to the next shows the new one. -/
theorem run_arrow_lookAt (table : List ShellCmd) (hediting : Editing dev')
    (hstatus : dev.recvStatus = 0) (harrow : keyboardExpandUp = ch ∨ keyboardExpandDown = ch)
    (hmove : (if keyboardExpandUp = ch then shellBufferCurrentPointSub dev
      else shellBufferCurrentPointInc dev) = dev') (old : List ShellEvent) :
    ∃ t, runInputs (sessionStep table) anyStep [keyboardExpandHead, keyboardExpandType, ch]
        ⟨dev, old⟩ = some t ∧ t.dev = dev' ∧
      lastShown t.events = dev'.shellBuffer.map ShellDevBuff.shown := by
  obtain ⟨entry, hentry, -⟩ := hediting.current
  have hlog := hediting.prompt
  have hprompt := List.getElem?_eq_getElem hlog
  have hdirection : shellDirection dev ch = some (dev',
      [.write [0x0d, 0], .write usrLog[dev'.priority], .write entry.print]) := by
    unfold shellDirection
    rw [if_pos harrow, hmove]
    simp only [hprompt, hentry, Option.bind_eq_bind, Option.bind_some]
  refine ⟨_, run_arrow table hstatus harrow hdirection old, rfl, ?_⟩
  rw [hentry, lastShown]
  simp [List.getLast?_append, ShellDevBuff.shown]

/-- A key pressed `k` times goes through the positions `pos`. -/
theorem run_presses (table : List ShellCmd) (key : List Byte) (pos : Nat → ShellDev)
    (hpress : ∀ i < k, ∀ old, ∃ t,
      runInputs (sessionStep table) anyStep key ⟨pos i, old⟩ = some t ∧
        t.dev = pos (i + 1) ∧ lastShown t.events = (pos (i + 1)).shellBuffer.map ShellDevBuff.shown)
    (hk : 0 < k) (old : List ShellEvent) :
    ∃ t, runInputs (sessionStep table) anyStep (presses k key) ⟨pos 0, old⟩ = some t ∧
      t.dev = pos k ∧ lastShown t.events = (pos k).shellBuffer.map ShellDevBuff.shown := by
  induction k with
  | zero => cases hk
  | succ k ih =>
    have hlast := hpress k (Nat.lt_succ_self k)
    rw [presses, List.replicate_succ', List.flatten_concat]
    rcases Nat.eq_zero_or_pos k with rfl | hpos
    · exact hlast old
    · obtain ⟨⟨_, events⟩, hrun, rfl, -⟩ :=
        ih (fun i hi => hpress i (hi.trans (Nat.lt_succ_self k))) hpos
      obtain ⟨t, ht, hdev, hshown⟩ := hlast events
      refine ⟨t, ?_, hdev, hshown⟩
      rw [runInputs, List.foldlM_append]
      exact Option.bind_eq_some_iff.mpr ⟨_, hrun, ht⟩

/-- Any entry between the oldest and the fresh one may be the current one. -/
theorem Editing.lookAt (he : Editing dev) {j : Nat}
    (hhistory : dev.historyPoint = (dev.tailPoint + m) % shellBufferNumMax)
    (hm : m < shellBufferNumMax) (hj : j ≤ m) : Editing (dev.lookAt j) where
  tail := he.tail
  head := Nat.mod_lt _ (by decide)
  history := he.history
  between := by
    have htail := he.tail
    unfold ahead ShellDev.lookAt
    dsimp only
    rw [hhistory]
    unfold shellBufferNumMax at *
    omega
  offsets := he.offsets
  prompt := he.prompt

theorem Recalls.lookAt_shown {k : Nat} (h : Recalls dev.lines lines) (hk : 1 ≤ k)
    (hrecent : k ≤ (recent lines).length) :
    (dev.lookAt ((recent lines).length - k)).shellBuffer.map ShellDevBuff.shown =
      lines[lines.length - k]? := by
  obtain ⟨typed, hring⟩ := h.holds
  have hcell := hring.cells ((recent lines).length - k) (by simp)
  have hlength := recent_length lines
  rw [List.getElem?_append_left (by omega), recent, List.getElem?_drop, List.length_drop] at hcell
  have hindex : lines.length - (shellBufferNumMax - 1) +
      (lines.length - (lines.length - (shellBufferNumMax - 1)) - k) = lines.length - k := by
    rw [hlength] at hrecent
    omega
  rw [hindex] at hcell
  rw [recent, List.length_drop]
  exact hcell

theorem run_ups (he : Editing dev) (table : List ShellCmd) (hstatus : dev.recvStatus = 0)
    (hhistory : dev.historyPoint = (dev.tailPoint + m) % shellBufferNumMax)
    (hm : m < shellBufferNumMax) (hk : 0 < k) (hkm : k ≤ m) (old : List ShellEvent) :
    ∃ t, runInputs (sessionStep table) anyStep (presses k upKey) ⟨dev.lookAt m, old⟩ = some t ∧
      t.dev = dev.lookAt (m - k) ∧
      lastShown t.events = (dev.lookAt (m - k)).shellBuffer.map ShellDevBuff.shown := by
  apply run_presses table upKey (fun i => dev.lookAt (m - i)) _ hk old
  intro i hi old
  have hbegin : (dev.lookAt (m - i)).recvStatus = 0 := hstatus
  apply run_arrow_lookAt table (he.lookAt hhistory hm (by omega)) hbegin (.inl rfl)
  rw [if_pos rfl, show m - i = m - (i + 1) + 1 by omega]
  exact currentPointSub_lookAt (by omega)

theorem run_downs (he : Editing dev) (table : List ShellCmd) (hstatus : dev.recvStatus = 0)
    (hhistory : dev.historyPoint = (dev.tailPoint + m) % shellBufferNumMax)
    (hm : m < shellBufferNumMax) (hk : 0 < k) (hkm : k ≤ m) (old : List ShellEvent) :
    ∃ t, runInputs (sessionStep table) anyStep (presses k downKey) ⟨dev.lookAt (m - k), old⟩ =
        some t ∧ t.dev = dev.lookAt m ∧
      lastShown t.events = (dev.lookAt m).shellBuffer.map ShellDevBuff.shown := by
  have hback : m - k + k = m := Nat.sub_add_cancel hkm
  have hruns := run_presses table downKey (fun i => dev.lookAt (m - k + i)) (k := k) ?_ hk old
  · rwa [hback] at hruns
  intro i hi old
  have hbegin : (dev.lookAt (m - k + i)).recvStatus = 0 := hstatus
  apply run_arrow_lookAt table (he.lookAt hhistory hm (by omega)) hbegin (.inr rfl)
  rw [if_neg (by decide)]
  exact currentPointInc_lookAt hhistory hm (by omega)

/-- In every run in which recalled entries are only looked at, pressing Up shows the
last lines that were submitted, the newest one first, and as many times Down brings
back the line that was being typed. -/
theorem history_recalls (table : List ShellCmd) {priority : Nat}
    (hpriority : priority < usrLog.length) (ack : Byte)
    (hrun : Reaches (sessionStep table) Session.Undisturbed ⟨zeroed priority ack, []⟩ s)
    (hfresh : s.dev.headPoint = s.dev.historyPoint) (hstatus : s.dev.recvStatus = 0)
    (hk : 1 ≤ k) (hlast : k ≤ min (submittedLines s.events).length (shellBufferNumMax - 1)) :
    ∃ t back, runInputs (sessionStep table) anyStep (presses k upKey) s = some t ∧
      lastShown t.events =
        (submittedLines s.events)[(submittedLines s.events).length - k]? ∧
      runInputs (sessionStep table) anyStep (presses k downKey) t = some back ∧
      back.dev = s.dev ∧ lastShown back.events = s.dev.shellBuffer.map ShellDevBuff.shown := by
  have hinv : Remembers s := by
    apply hrun.invariant Remembers
    · exact zeroed_remembers hpriority ack
    · intro s ch t h hok hstep
      exact h.step hok hstep
  obtain ⟨dev, events⟩ := s
  obtain ⟨he, hrecalls⟩ := hinv
  dsimp only at *
  have hroom := recent_room (submittedLines events)
  rw [← recent_length] at hlast
  have hhistory : dev.historyPoint =
      (dev.tailPoint + (recent (submittedLines events)).length) % shellBufferNumMax :=
    hrecalls.history
  have hstart : dev.lookAt (recent (submittedLines events)).length = dev := by
    unfold ShellDev.lookAt
    rw [← hfresh.trans hhistory]
  obtain ⟨⟨_, old⟩, hup, rfl, hshown⟩ := run_ups he table hstatus hhistory hroom hk hlast events
  obtain ⟨back, hdown, hback, htyped⟩ := run_downs he table hstatus hhistory hroom hk hlast old
  rw [hstart] at hup hback htyped
  rw [hrecalls.lookAt_shown hk hlast] at hshown
  exact ⟨_, back, hup, hshown, hdown, hback, htyped⟩

theorem second_line_is_recalled :
    ∃ s t back, runInputs (sessionStep [helpCmd]) Session.Undisturbed
        (text "a" ++ [0x0d] ++ text "b" ++ [0x0d] ++ upKey ++ downKey ++ text "x")
        ⟨zeroed 1 1, []⟩ = some s ∧
      runInputs (sessionStep [helpCmd]) anyStep (presses 2 upKey) s = some t ∧
      lastShown t.events = some (text "a") ∧
      runInputs (sessionStep [helpCmd]) anyStep (presses 2 downKey) t = some back ∧
      lastShown back.events = some (text "x") := by
  have hrun : (runInputs (sessionStep [helpCmd]) Session.Undisturbed
      (text "a" ++ [0x0d] ++ text "b" ++ [0x0d] ++ upKey ++ downKey ++ text "x")
      ⟨zeroed 1 1, []⟩).map (fun s => (decide (s.dev.headPoint = s.dev.historyPoint),
        s.dev.recvStatus, submittedLines s.events, s.dev.shellBuffer.map ShellDevBuff.shown)) =
      some (true, 0, [text "a", text "b"], some (text "x")) := by decide +kernel
  obtain ⟨s, hs, hview⟩ := Option.map_eq_some_iff.mp hrun
  simp only [Prod.mk.injEq, decide_eq_true_eq] at hview
  obtain ⟨hfresh, hstatus, hlines, htyped⟩ := hview
  have hlog : 1 < usrLog.length := by decide
  have hlast : 2 ≤ min (submittedLines s.events).length (shellBufferNumMax - 1) := by
    rw [hlines]
    decide
  obtain ⟨t, back, hup, hshown, hdown, -, hback⟩ := history_recalls [helpCmd] hlog 1
    (.of_runInputs hs) hfresh hstatus (by decide) hlast
  rw [hlines] at hshown
  exact ⟨s, t, back, hs, hup, hshown, hdown, hback.trans htyped⟩

/-- A recall that was run. -/
theorem recall_shows {shown : List Byte} (keys : List Byte)
    (hrun : (runInputs (sessionStep table) anyStep keys ⟨zeroed 1 1, []⟩).bind (fun s =>
      (runInputs (sessionStep table) anyStep (presses k upKey) s).map fun t =>
        (decide (s.dev.headPoint = s.dev.historyPoint), s.dev.recvStatus,
          submittedLines s.events, lastShown t.events)) = some (true, 0, lines, some shown)) :
    ∃ s t, Reaches (sessionStep table) anyStep ⟨zeroed 1 1, []⟩ s ∧
      s.dev.headPoint = s.dev.historyPoint ∧ s.dev.recvStatus = 0 ∧
      submittedLines s.events = lines ∧
      runInputs (sessionStep table) anyStep (presses k upKey) s = some t ∧
      lastShown t.events = some shown := by
  obtain ⟨s, hs, hrun⟩ := Option.bind_eq_some_iff.mp hrun
  obtain ⟨t, ht, hview⟩ := Option.map_eq_some_iff.mp hrun
  simp only [Prod.mk.injEq, decide_eq_true_eq] at hview
  obtain ⟨hfresh, hstatus, hlines, hshown⟩ := hview
  exact ⟨s, t, .of_runInputs hs, hfresh, hstatus, hlines, ht, hshown⟩

/-- Enter on a recalled line loses the lines after it, and a recalled line that is
typed on shows what was typed. -/
theorem submitted_recall_loses_lines :
    (∃ s t, Reaches (sessionStep [helpCmd]) anyStep ⟨zeroed 1 1, []⟩ s ∧
      s.dev.headPoint = s.dev.historyPoint ∧ s.dev.recvStatus = 0 ∧
      submittedLines s.events = [text "a", text "b", text "c", text "a"] ∧
      runInputs (sessionStep [helpCmd]) anyStep (presses 2 upKey) s = some t ∧
      lastShown t.events = some (text "a")) ∧
    ∃ s t, Reaches (sessionStep [helpCmd]) anyStep ⟨zeroed 1 1, []⟩ s ∧
      s.dev.headPoint = s.dev.historyPoint ∧ s.dev.recvStatus = 0 ∧
      submittedLines s.events = [text "a"] ∧
      runInputs (sessionStep [helpCmd]) anyStep (presses 1 upKey) s = some t ∧
      lastShown t.events = some (text "ax") := by
  constructor
  · exact recall_shows (text "a" ++ [0x0d] ++ text "b" ++ [0x0d] ++ text "c" ++ [0x0d] ++
      presses 3 upKey ++ [0x0d]) (by decide +kernel)
  · exact recall_shows (text "a" ++ [0x0d] ++ upKey ++ text "x" ++ downKey)
      (by decide +kernel)

end PosixRtos.Shell
