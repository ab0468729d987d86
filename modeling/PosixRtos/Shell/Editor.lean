import PosixRtos.Libc.Strings
import PosixRtos.Library.Runs

/-! The line editor of `shell.c`. Eight entries of 64 characters are used in turn;
the one being typed and the submitted ones before it are reached with the arrow
keys. The thread handles one input character at a time; `none` is an access
outside of an array. -/
namespace PosixRtos.Shell

open PosixRtos.Library.ByteMemory PosixRtos.Library.Runs PosixRtos.Libc

def shellBufferLengthMax : Nat := 64

def shellBufferNumMax : Nat := 8

structure ShellDevBuff where
  data : Vector Byte shellBufferLengthMax
  offset : Nat

structure ShellDev where
  buffer : Vector ShellDevBuff shellBufferNumMax
  tailPoint : Nat
  headPoint : Nat
  historyPoint : Nat
  priority : Nat
  recvStatus : Byte
  ack : Byte

/-- An entry of the command table; the name is a C string that is not empty. The
command functions of the source print and leave the device alone. -/
structure ShellCmd where
  name : List Byte
  priority : Nat
  named : name ≠ []
  closed : (0 : Byte) ∉ name

/-- What the thread does besides changing the device: `find` is a call of
`shell_cmd_find` with the device as it is then. -/
inductive ShellEvent where
  | write (bytes : List Byte)
  | find (dev : ShellDev)
  | run (cmd : ShellCmd)

def keyboardExpandHead : Byte := 0x1b
def keyboardExpandType : Byte := 0x5b
def keyboardExpandUp : Byte := 0x41
def keyboardExpandDown : Byte := 0x42
def keyboardExpandRight : Byte := 0x43
def keyboardExpandLeft : Byte := 0x44

/-- `INPUT_IS_*`. -/
inductive InputType where
  | nomal
  | expandHead
  | expandType
  | direction
deriving DecidableEq

def shellRecvKeybaordExpand (dev : ShellDev) (ch : Byte) : ShellDev × InputType :=
  if dev.recvStatus = 0 then
    if keyboardExpandHead = ch then
      ({ dev with recvStatus := keyboardExpandHead }, .expandHead)
    else (dev, .nomal)
  else if keyboardExpandHead = dev.recvStatus then
    if keyboardExpandType = ch then
      ({ dev with recvStatus := keyboardExpandType }, .expandType)
    else ({ dev with recvStatus := 0 }, .nomal)
  else if keyboardExpandType = dev.recvStatus then
    let dev := { dev with recvStatus := 0 }
    if keyboardExpandUp = ch ∨ keyboardExpandDown = ch ∨ keyboardExpandRight = ch ∨
        keyboardExpandLeft = ch then (dev, .direction)
    else (dev, .nomal)
  else (dev, .nomal)

/-! The macros. -/

/-- The entry at `head_point`. -/
def ShellDev.shellBuffer (dev : ShellDev) : Option ShellDevBuff := dev.buffer[dev.headPoint]?

def ShellDev.setBuffer (dev : ShellDev) (entry : ShellDevBuff) : Option ShellDev :=
  if h : dev.headPoint < shellBufferNumMax then
    some { dev with buffer := dev.buffer.set dev.headPoint entry h }
  else none

def ShellDevBuff.isFull (entry : ShellDevBuff) : Bool := shellBufferLengthMax - 2 ≤ entry.offset

def ShellDevBuff.isEmpty (entry : ShellDevBuff) : Bool := 0 = entry.offset

def ShellDevBuff.insertCh (entry : ShellDevBuff) (ch : Byte) : Option ShellDevBuff :=
  if h : entry.offset < shellBufferLengthMax then
    some { data := entry.data.set entry.offset ch h, offset := entry.offset + 1 }
  else none

def ShellDevBuff.deleteCh (entry : ShellDevBuff) : ShellDevBuff :=
  { entry with offset := entry.offset - 1 }

def ShellDevBuff.clearLast (entry : ShellDevBuff) : ShellDevBuff := { entry with offset := 0 }

/-- The bytes that `SHELL_BUFFER_PRINT` writes. -/
def ShellDevBuff.print (entry : ShellDevBuff) : List Byte := entry.data.toList.take entry.offset

def shellBufferPointInc (dev : ShellDev) : ShellDev :=
  let head := (dev.headPoint + 1) % shellBufferNumMax
  { dev with
    headPoint := head
    tailPoint := if head = dev.tailPoint then (dev.tailPoint + 1) % shellBufferNumMax
      else dev.tailPoint
    historyPoint := head }

def shellBufferCurrentPointInc (dev : ShellDev) : ShellDev :=
  if dev.historyPoint ≠ dev.headPoint then
    { dev with headPoint := (dev.headPoint + 1) % shellBufferNumMax }
  else dev

def shellBufferCurrentPointSub (dev : ShellDev) : ShellDev :=
  if dev.headPoint ≠ dev.tailPoint then
    { dev with headPoint :=
        if dev.headPoint ≠ 0 then dev.headPoint - 1 else shellBufferNumMax - 1 }
  else dev

/-- `usr_log`, which has five entries. -/
def usrLog : List (List Byte) :=
  [[], text "Usr >:", text "Admin >:", text "Master >:", text "Root >:"]

/-- `shell_cmd_find`: the first command whose name `strstr` finds at the very
start of the line. -/
def shellCmdFind (line : List Byte) : List ShellCmd → Option (Option ShellCmd)
  | [] => some none
  | cmd :: table => do
      let found ← strstr line (cmd.name ++ [0])
      if found = some 0 then some (some cmd) else shellCmdFind line table

/-- `SHELL_DEV_NEED_ACK`. -/
def ShellDev.echo (dev : ShellDev) (bytes : List Byte) : List ShellEvent :=
  if dev.ack = 1 then [.write bytes] else []

def shellText (dev : ShellDev) (ch : Byte) : Option (ShellDev × List ShellEvent) := do
  let entry ← dev.shellBuffer
  if entry.isFull then some (dev, [])
  else do
    let entry ← entry.insertCh ch
    let dev ← dev.setBuffer entry
    some (dev, dev.echo [ch])

def shellBackspace (dev : ShellDev) : Option (ShellDev × List ShellEvent) := do
  let entry ← dev.shellBuffer
  if entry.isEmpty then some (dev, [])
  else do
    let dev ← dev.setBuffer entry.deleteCh
    some (dev, dev.echo [0x08, ascii ' ', 0x08])

/-- `sizeof` counts the NUL of `"\r\n"`. -/
def shellEnter (table : List ShellCmd) (dev : ShellDev) : Option (ShellDev × List ShellEvent) := do
  let entry ← dev.shellBuffer
  if entry.isFull then some (dev, [])
  else do
    let entry ← entry.insertCh 0
    let dev ← dev.setBuffer entry
    let found ← shellCmdFind entry.data.toList table
    let runs := found.toList.filter fun cmd => cmd.priority ≤ dev.priority
    let prompt ← usrLog[dev.priority]?
    let after := shellBufferPointInc dev
    let next ← after.shellBuffer
    let after ← after.setBuffer next.clearLast
    some (after, [.find dev] ++ runs.map .run ++ [.write [0x0d, 0x0a, 0], .write prompt])

def shellDirection (dev : ShellDev) (ch : Byte) : Option (ShellDev × List ShellEvent) :=
  if keyboardExpandUp = ch ∨ keyboardExpandDown = ch then do
    let dev := if keyboardExpandUp = ch then shellBufferCurrentPointSub dev
      else shellBufferCurrentPointInc dev
    let prompt ← usrLog[dev.priority]?
    let entry ← dev.shellBuffer
    some (dev, [.write [0x0d, 0], .write prompt, .write entry.print])
  else some (dev, [])

/-- One turn of `shell_thread_entry` with a character that was read. -/
def shellInput (table : List ShellCmd) (dev : ShellDev) (ch : Byte) :
    Option (ShellDev × List ShellEvent) :=
  let (dev, input) := shellRecvKeybaordExpand dev ch
  match input with
  | .direction => shellDirection dev ch
  | .expandHead | .expandType => some (dev, [])
  | .nomal =>
      match chClassify ch with
      | some .text => shellText dev ch
      | some .backspace => shellBackspace dev
      | some .enter => shellEnter table dev
      | none => some (dev, [])

/-- The device and all that has happened, in order. -/
structure Session where
  dev : ShellDev
  events : List ShellEvent

def sessionStep (table : List ShellCmd) (s : Session) (ch : Byte) : Option Session := do
  let (dev, events) ← shellInput table s.dev ch
  some { dev := dev, events := s.events ++ events }

def emptyEntry : ShellDevBuff := ⟨.replicate shellBufferLengthMax 0, 0⟩

/-- A device of zeros, but for what `shell_dev_create` sets. -/
def zeroed (priority : Nat) (ack : Byte) : ShellDev where
  buffer := .replicate shellBufferNumMax emptyEntry
  tailPoint := 0
  headPoint := 0
  historyPoint := 0
  priority := priority
  recvStatus := 0
  ack := ack

/-! The editor stays inside of its buffers. -/

/-- How far `p` is ahead of `q` in the cycle of entries. -/
def ahead (p q : Nat) : Nat := (p + shellBufferNumMax - q) % shellBufferNumMax

/-- The three points are entries, with `head_point` from `tail_point` to
`history_point` in the cycle; no entry is filled to its end. -/
structure Editing (dev : ShellDev) : Prop where
  tail : dev.tailPoint < shellBufferNumMax
  head : dev.headPoint < shellBufferNumMax
  history : dev.historyPoint < shellBufferNumMax
  between : ahead dev.headPoint dev.tailPoint ≤ ahead dev.historyPoint dev.tailPoint
  offsets : ∀ entry ∈ dev.buffer, entry.offset ≤ shellBufferLengthMax - 2
  prompt : dev.priority < usrLog.length

/-- `shell_cmd_find` is called on a string that ends in its array. -/
def Findable (dev : ShellDev) : Prop :=
  ∃ entry, dev.shellBuffer = some entry ∧ Terminated entry.data.toList

variable {dev dev' : ShellDev} {entry : ShellDevBuff} {ch : Byte} {table : List ShellCmd}

theorem Editing.current (he : Editing dev) :
    ∃ entry, dev.shellBuffer = some entry ∧ entry.offset ≤ shellBufferLengthMax - 2 := by
  refine ⟨dev.buffer.get ⟨dev.headPoint, he.head⟩, Vector.getElem?_eq_getElem he.head, ?_⟩
  exact he.offsets _ (Vector.getElem_mem he.head)

theorem Editing.setBuffer (he : Editing dev) (entry : ShellDevBuff)
    (hoffset : entry.offset ≤ shellBufferLengthMax - 2) :
    ∃ dev', dev.setBuffer entry = some dev' ∧ Editing dev' ∧ dev'.shellBuffer = some entry := by
  refine ⟨{ dev with buffer := dev.buffer.set dev.headPoint entry he.head }, ?_, ?_, ?_⟩
  · exact dif_pos he.head
  · refine ⟨he.tail, he.head, he.history, he.between, ?_, he.prompt⟩
    intro other hother
    have hset : other ∈ dev.buffer.set dev.headPoint entry he.head := hother
    rcases Vector.mem_or_eq_of_mem_set hset with hold | rfl
    · exact he.offsets other hold
    · exact hoffset
  · simp [ShellDev.shellBuffer, he.head]

/-- There is room for a character and the one after it. -/
theorem insertCh_of_not_full (hfull : entry.isFull = false) (ch : Byte) :
    ∃ entry', entry.insertCh ch = some entry' ∧ entry'.offset ≤ shellBufferLengthMax - 2 ∧
      ch ∈ entry'.data.toList := by
  have hlt : entry.offset < shellBufferLengthMax - 2 := by
    simp only [ShellDevBuff.isFull, decide_eq_false_iff_not, not_le] at hfull
    exact hfull
  have hroom : entry.offset < shellBufferLengthMax := by omega
  refine ⟨_, dif_pos hroom, ?_, ?_⟩
  · exact hlt
  · have hset : ch ∈ entry.data.set entry.offset ch hroom :=
      Vector.mem_iff_getElem.mpr ⟨entry.offset, hroom, Vector.getElem_set_self hroom⟩
    exact Vector.mem_toList_iff.mpr hset

/-- Only what the invariant reads. -/
theorem Editing.recvStatus (he : Editing dev) (status : Byte) :
    Editing { dev with recvStatus := status } :=
  ⟨he.tail, he.head, he.history, he.between, he.offsets, he.prompt⟩

theorem Editing.keyboard (he : Editing dev) (ch : Byte) :
    Editing (shellRecvKeybaordExpand dev ch).1 := by
  unfold shellRecvKeybaordExpand
  split
  · split
    · exact he.recvStatus _
    · exact he
  split
  · split
    · exact he.recvStatus _
    · exact he.recvStatus _
  split
  · dsimp only
    split
    · exact he.recvStatus _
    · exact he.recvStatus _
  · exact he

/-- After Enter the entry being typed is the newest one. -/
theorem Editing.pointInc (he : Editing dev) : Editing (shellBufferPointInc dev) := by
  have hlt : ∀ p, (p + 1) % shellBufferNumMax < shellBufferNumMax :=
    fun p => Nat.mod_lt _ (by decide)
  refine ⟨?_, hlt _, hlt _, le_rfl, he.offsets, he.prompt⟩
  unfold shellBufferPointInc
  dsimp only
  split
  · exact hlt _
  · exact he.tail

/-- Down goes no further than `history_point`. -/
theorem Editing.currentPointInc (he : Editing dev) : Editing (shellBufferCurrentPointInc dev) := by
  unfold shellBufferCurrentPointInc
  split
  · next hne =>
    have htail := he.tail
    have hhead := he.head
    have hhistory := he.history
    have hbetween := he.between
    refine ⟨htail, Nat.mod_lt _ (by decide), hhistory, ?_, he.offsets, he.prompt⟩
    unfold ahead shellBufferNumMax at *
    dsimp only at *
    omega
  · exact he

/-- Up goes no further than `tail_point`. -/
theorem Editing.currentPointSub (he : Editing dev) : Editing (shellBufferCurrentPointSub dev) := by
  unfold shellBufferCurrentPointSub
  split
  · next hne =>
    have htail := he.tail
    have hhead := he.head
    have hhistory := he.history
    have hbetween := he.between
    refine ⟨htail, ?_, hhistory, ?_, he.offsets, he.prompt⟩
    · dsimp only
      split
      · omega
      · decide
    · unfold ahead shellBufferNumMax at *
      dsimp only at *
      split <;> omega
  · exact he

theorem shellCmdFind_of_terminated {line : List Byte} (hline : Terminated line)
    (table : List ShellCmd) : ∃ found, shellCmdFind line table = some found := by
  induction table with
  | nil => exact ⟨none, rfl⟩
  | cons cmd table ih =>
    obtain ⟨r, hr⟩ := strstr_of_terminated hline cmd.closed cmd.named []
    rw [shellCmdFind, hr, Option.bind_eq_bind, Option.bind_some]
    split
    · exact ⟨_, rfl⟩
    · exact ih

/-- A turn of the loop is defined, keeps the invariant, and calls
`shell_cmd_find` only on a device where that is safe. -/
def Turns (result : Option (ShellDev × List ShellEvent)) : Prop :=
  ∃ dev events, result = some (dev, events) ∧ Editing dev ∧
    ∀ seen, .find seen ∈ events → Editing seen ∧ Findable seen

theorem Editing.turns_quiet (he : Editing dev) {events : List ShellEvent}
    (hquiet : ∀ seen, .find seen ∉ events) : Turns (some (dev, events)) :=
  ⟨dev, events, rfl, he, fun seen hseen => absurd hseen (hquiet seen)⟩

theorem find_notMem_echo (dev seen : ShellDev) (bytes : List Byte) :
    ShellEvent.find seen ∉ dev.echo bytes := by
  unfold ShellDev.echo
  split <;> simp

theorem Editing.text (he : Editing dev) (ch : Byte) : Turns (shellText dev ch) := by
  obtain ⟨entry, hentry, -⟩ := he.current
  unfold shellText
  rw [hentry, Option.bind_eq_bind, Option.bind_some]
  cases hfull : entry.isFull with
  | true => exact he.turns_quiet (by simp)
  | false =>
    obtain ⟨entry', hinsert, hoffset, -⟩ := insertCh_of_not_full hfull ch
    obtain ⟨dev', hset, he', -⟩ := he.setBuffer _ hoffset
    simp only [hinsert, hset, Option.bind_eq_bind, Option.bind_some]
    exact he'.turns_quiet fun seen => find_notMem_echo _ seen _

theorem Editing.backspace (he : Editing dev) : Turns (shellBackspace dev) := by
  obtain ⟨entry, hentry, hoffset⟩ := he.current
  unfold shellBackspace
  rw [hentry, Option.bind_eq_bind, Option.bind_some]
  cases hempty : entry.isEmpty with
  | true => exact he.turns_quiet (by simp)
  | false =>
    obtain ⟨dev', hset, he', -⟩ := he.setBuffer entry.deleteCh
      ((Nat.sub_le _ _).trans hoffset)
    simp only [hset, Option.bind_eq_bind, Option.bind_some]
    exact he'.turns_quiet fun seen => find_notMem_echo _ seen _

theorem Editing.enter (he : Editing dev) (table : List ShellCmd) :
    Turns (shellEnter table dev) := by
  obtain ⟨entry, hentry, -⟩ := he.current
  unfold shellEnter
  rw [hentry, Option.bind_eq_bind, Option.bind_some]
  cases hfull : entry.isFull with
  | true => exact he.turns_quiet (by simp)
  | false =>
    obtain ⟨entry', hinsert, hoffset, hnul⟩ := insertCh_of_not_full hfull 0
    obtain ⟨dev', hset, he', hcurrent⟩ := he.setBuffer _ hoffset
    obtain ⟨found, hfound⟩ := shellCmdFind_of_terminated hnul table
    have hprompt := List.getElem?_eq_getElem he'.prompt
    obtain ⟨next, hnext, -⟩ := he'.pointInc.current
    obtain ⟨after, hafter, hediting, -⟩ := he'.pointInc.setBuffer next.clearLast
      (Nat.zero_le _)
    simp only [hinsert, hset, hfound, hprompt, hnext, hafter, Option.bind_eq_bind,
      Option.bind_some]
    refine ⟨_, _, rfl, hediting, fun seen hseen => ?_⟩
    have hseen' : seen = dev' := by simpa using hseen
    subst hseen'
    exact ⟨he', entry', hcurrent, hnul⟩

theorem Editing.direction (he : Editing dev) (ch : Byte) : Turns (shellDirection dev ch) := by
  unfold shellDirection
  split
  swap
  · exact he.turns_quiet (by simp)
  have hmoved : Editing (if keyboardExpandUp = ch then shellBufferCurrentPointSub dev
      else shellBufferCurrentPointInc dev) := by
    split
    · exact he.currentPointSub
    · exact he.currentPointInc
  dsimp only
  generalize (if keyboardExpandUp = ch then shellBufferCurrentPointSub dev
    else shellBufferCurrentPointInc dev) = moved at hmoved ⊢
  obtain ⟨entry, hentry, -⟩ := hmoved.current
  have hprompt := List.getElem?_eq_getElem hmoved.prompt
  simp only [hentry, hprompt, Option.bind_eq_bind, Option.bind_some]
  exact hmoved.turns_quiet (by simp)

theorem Editing.input (he : Editing dev) (table : List ShellCmd) (ch : Byte) :
    Turns (shellInput table dev ch) := by
  have hkey := he.keyboard ch
  unfold shellInput
  generalize shellRecvKeybaordExpand dev ch = key at hkey ⊢
  obtain ⟨dev', input⟩ := key
  cases input with
  | direction => exact hkey.direction ch
  | expandHead | expandType => exact hkey.turns_quiet (by simp)
  | nomal =>
    dsimp only
    split
    · exact hkey.text ch
    · exact hkey.backspace
    · exact hkey.enter table
    · exact hkey.turns_quiet (by simp)

theorem zeroed_editing {priority : Nat} (hpriority : priority < usrLog.length) (ack : Byte) :
    Editing (zeroed priority ack) := by
  have hzero : 0 < shellBufferNumMax := by decide
  refine ⟨hzero, hzero, hzero, le_rfl, ?_, hpriority⟩
  intro entry hentry
  rw [Vector.eq_of_mem_replicate hentry]
  exact Nat.zero_le _

/-- After every stream of keys: no access was outside of an array, the points and
the offsets are in their ranges, and `shell_cmd_find` was only called on a line
that ends inside of its entry. -/
theorem editor_stays_inside (table : List ShellCmd) {priority : Nat}
    (hpriority : priority < usrLog.length) (ack : Byte) (keys : List Byte) :
    ∃ s, runInputs (sessionStep table) anyStep keys ⟨zeroed priority ack, []⟩ = some s ∧
      Editing s.dev ∧ ∀ seen, .find seen ∈ s.events → Editing seen ∧ Findable seen := by
  let inv : List Byte → Session → Prop := fun _ s =>
    Editing s.dev ∧ ∀ seen, .find seen ∈ s.events → Editing seen ∧ Findable seen
  have hstep : ∀ ch rest s, inv (ch :: rest) s →
      ∃ s', (if anyStep s ch then sessionStep table s ch else none) = some s' ∧ inv rest s' := by
    rintro ch rest s ⟨he, hfinds⟩
    obtain ⟨dev, events, hinput, he', hnew⟩ := he.input table ch
    have hany : anyStep s ch := trivial
    refine ⟨⟨dev, s.events ++ events⟩, ?_, he', fun seen hseen => ?_⟩
    · rw [if_pos hany, sessionStep, hinput]
      rfl
    · exact (List.mem_append.mp hseen).elim (hfinds seen) (hnew seen)
  have hstart : inv keys ⟨zeroed priority ack, []⟩ := ⟨zeroed_editing hpriority ack, by simp⟩
  exact foldlM_invariant hstep keys _ hstart

def helpCmd : ShellCmd where
  name := text "help"
  priority := 1
  named := by decide
  closed := by decide

/-- Enter, and then Enter again on the line that Up recalls. -/
def recallKeys : List Byte :=
  text "help" ++ [0x0d] ++ [keyboardExpandHead, keyboardExpandType, keyboardExpandUp, 0x7f, 0x0d]

theorem recallKeys_stay_inside :
    ∃ s, runInputs (sessionStep [helpCmd]) anyStep recallKeys ⟨zeroed 1 1, []⟩ = some s ∧
      s.dev.historyPoint = 1 ∧ Editing s.dev := by
  have hlog : 1 < usrLog.length := by decide
  obtain ⟨s, hs, he, -⟩ := editor_stays_inside [helpCmd] hlog 1 recallKeys
  have hpoint : (runInputs (sessionStep [helpCmd]) anyStep recallKeys ⟨zeroed 1 1, []⟩).map
      (fun s => s.dev.historyPoint) = some 1 := by decide +kernel
  rw [hs] at hpoint
  exact ⟨s, hs, Option.some.inj hpoint, he⟩

end PosixRtos.Shell
