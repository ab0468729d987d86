import PosixRtos.Shell.Editor

/-! Which command a line runs. `shell_cmd_find` takes the first command of the
table whose name begins the line, and the order of the table is the linker's. -/
namespace PosixRtos.Shell

open PosixRtos.Library.ByteMemory PosixRtos.Libc

/-- The string in an array. -/
def lineOf (s : List Byte) : List Byte := s.takeWhile (· ≠ 0)

/-- The first word of a line; spaces in front of it are skipped. -/
def firstWord (line : List Byte) : List Byte :=
  (line.dropWhile (· = ascii ' ')).takeWhile (· ≠ ascii ' ')

/-- The line of an entry when Enter has put the terminator behind it. -/
def ShellDevBuff.line (entry : ShellDevBuff) : List Byte := lineOf entry.data.toList

/-- Lookup by whole name, whatever the order of the table. -/
structure LooksUp (table : List ShellCmd) (entry : ShellDevBuff) : Prop where
  found : shellCmdFind entry.data.toList table =
    some (table.find? fun cmd => cmd.name = firstWord entry.line)
  order : ∀ table', table'.Perm table →
    shellCmdFind entry.data.toList table' = shellCmdFind entry.data.toList table
  enter : ∀ table', table'.Perm table → ∀ dev current, dev.shellBuffer = some current →
    current.insertCh 0 = some entry → shellEnter table' dev = shellEnter table dev

variable {table table' : List ShellCmd} {entry current : ShellDevBuff} {s line : List Byte}

theorem zero_notMem_lineOf (s : List Byte) : (0 : Byte) ∉ lineOf s := by
  intro h
  have hall := List.all_eq_true.mp (List.all_takeWhile (p := (· ≠ 0)) (l := s))
  simpa using hall 0 h

theorem lineOf_append (hs : Terminated s) : ∃ rest, s = lineOf s ++ 0 :: rest := by
  induction s with
  | nil => cases hs
  | cons c s ih =>
    by_cases hc : c = 0
    · exact ⟨s, by simp [lineOf, hc]⟩
    · obtain ⟨rest, hrest⟩ := ih (hs.of_cons hc)
      refine ⟨rest, ?_⟩
      rw [lineOf, List.takeWhile_cons_of_pos (by simpa using hc), List.cons_append]
      exact congrArg (c :: ·) hrest

theorem shellCmdFind_eq (hs : Terminated s) (hlength : s.length < 2 ^ 32)
    (table : List ShellCmd) :
    shellCmdFind s table = some (table.find? fun cmd => cmd.name <+: lineOf s) := by
  induction table with
  | nil => rfl
  | cons cmd table ih =>
    obtain ⟨rest, hrest⟩ := lineOf_append hs
    have hfits : (lineOf s).length < 2 ^ 32 :=
      (List.takeWhile_sublist _).length_le.trans_lt hlength
    have hstrstr : strstr s (cmd.name ++ [0]) = some (occurrence cmd.name (lineOf s)) := by
      conv_lhs => rw [hrest]
      exact strstr_eq (zero_notMem_lineOf s) cmd.closed cmd.named (.inl hfits) rest []
    rw [shellCmdFind, hstrstr, Option.bind_eq_bind, Option.bind_some, List.find?_cons]
    by_cases hfound : cmd.name <+: lineOf s
    · rw [if_pos (occurrence_zero_iff.mpr hfound), decide_eq_true hfound]
    · rw [if_neg (mt occurrence_zero_iff.mp hfound), decide_eq_false hfound, ih]

/-- Where at most one element is looked for, the order does not matter. -/
theorem find?_perm {p : α → Bool} {l l' : List α} (hperm : l'.Perm l)
    (hunique : ∀ a ∈ l, ∀ b ∈ l, p a = true → p b = true → a = b) :
    l'.find? p = l.find? p := by
  have hfind : ∀ k : List α, k.Perm l → ∀ a, k.find? p = some a ↔ a ∈ l ∧ p a = true := by
    intro k hk a
    constructor
    · intro ha
      exact ⟨hk.mem_iff.mp (List.mem_of_find?_eq_some ha), List.find?_some ha⟩
    · rintro ⟨ha, hpa⟩
      have hsome : (k.find? p).isSome := List.find?_isSome.mpr ⟨a, hk.mem_iff.mpr ha, hpa⟩
      obtain ⟨b, hb⟩ := Option.isSome_iff_exists.mp hsome
      have hbl := hk.mem_iff.mp (List.mem_of_find?_eq_some hb)
      rw [hb, hunique b hbl a ha (List.find?_some hb) hpa]
  ext a
  rw [hfind l' hperm, hfind l (.refl l)]

theorem entry_length (entry : ShellDevBuff) : entry.data.toList.length < 2 ^ 32 := by
  rw [Vector.length_toList]
  decide

theorem shellEnter_eq_of_find {dev : ShellDev} (hcurrent : dev.shellBuffer = some current)
    (hinsert : current.insertCh 0 = some entry)
    (hfind : shellCmdFind entry.data.toList table' = shellCmdFind entry.data.toList table) :
    shellEnter table' dev = shellEnter table dev := by
  unfold shellEnter
  simp only [hcurrent, hinsert, hfind, Option.bind_eq_bind, Option.bind_some]

/-- Two commands of the table with the same name are one. -/
theorem name_injective (hdistinct : (table.map ShellCmd.name).Nodup) {cmd cmd' : ShellCmd}
    (hcmd : cmd ∈ table) (hcmd' : cmd' ∈ table) (hname : cmd.name = cmd'.name) : cmd = cmd' :=
  List.inj_on_of_nodup_map hdistinct hcmd hcmd' hname

/-- The lookup is by whole name exactly where no other name begins the line. -/
theorem lookup_exact_iff (hdistinct : (table.map ShellCmd.name).Nodup)
    (hline : Terminated entry.data.toList) :
    LooksUp table entry ↔
      ∀ cmd ∈ table, cmd.name <+: entry.line ↔ cmd.name = firstWord entry.line := by
  have hfind := fun table => shellCmdFind_eq hline (entry_length entry) table
  constructor
  · intro h cmd hcmd
    have hfound := h.found
    rw [hfind, Option.some_inj] at hfound
    constructor
    · intro hbegins
      -- the linker may put this command first
      obtain ⟨front, back, rfl⟩ := List.append_of_mem hcmd
      have hperm : (cmd :: (front ++ back)).Perm (front ++ cmd :: back) := List.perm_middle.symm
      have horder := h.order _ hperm
      rw [hfind, hfind, Option.some_inj, hfound, List.find?_cons,
        decide_eq_true (show cmd.name <+: lineOf entry.data.toList from hbegins)] at horder
      simpa using List.find?_some horder.symm
    · intro hword
      have hsome : (table.find? fun cmd => cmd.name = firstWord entry.line).isSome :=
        List.find?_isSome.mpr ⟨cmd, hcmd, decide_eq_true hword⟩
      obtain ⟨cmd', hcmd'⟩ := Option.isSome_iff_exists.mp hsome
      rw [hcmd'] at hfound
      have hbegins : cmd'.name <+: lineOf entry.data.toList := by
        simpa using List.find?_some hfound
      have hword' : cmd'.name = firstWord entry.line := by simpa using List.find?_some hcmd'
      rwa [hword', ← hword] at hbegins
  · intro h
    have hsame : ∀ cmd ∈ table, decide (cmd.name <+: entry.line) =
        decide (cmd.name = firstWord entry.line) :=
      fun cmd hcmd => decide_eq_decide.mpr (h cmd hcmd)
    have horder : ∀ table', table'.Perm table →
        shellCmdFind entry.data.toList table' = shellCmdFind entry.data.toList table := by
      intro table' hperm
      rw [hfind, hfind]
      congr 1
      apply find?_perm hperm
      intro cmd hcmd cmd' hcmd' hbegins hbegins'
      apply name_injective hdistinct hcmd hcmd'
      rw [(h cmd hcmd).mp (of_decide_eq_true hbegins),
        (h cmd' hcmd').mp (of_decide_eq_true hbegins')]
    refine ⟨?_, horder, ?_⟩
    · rw [hfind]
      congr 1
      exact List.find?_congr hsame
    · intro table' hperm dev current hcurrent hinsert
      exact shellEnter_eq_of_find hcurrent hinsert (horder table' hperm)

/-- The entry after Enter has been pressed on `s`. -/
def typedEntry (s : String) : ShellDevBuff where
  data := .ofFn fun i => (text s).getD i 0
  offset := s.length + 1

def ifconfigCmd : ShellCmd where
  name := text "ifconfig"
  priority := 1
  named := by decide
  closed := by decide

theorem help_looksUp : LooksUp [helpCmd, ifconfigCmd] (typedEntry "help me") := by
  refine (lookup_exact_iff ?_ ?_).mpr ?_
  · decide
  · exact List.mem_of_elem_eq_true (by decide)
  · decide

/-- `helpx` runs `help`. -/
theorem longer_word_is_found : ¬ LooksUp [helpCmd, ifconfigCmd] (typedEntry "helpx") := by
  intro h
  have hfound := congrArg (Option.map Option.isSome) h.found
  revert hfound
  decide +kernel

end PosixRtos.Shell
