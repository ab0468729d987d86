import PosixRtos.Kernel.State
import PosixRtos.Libc.Strings

/-! The objects of `unistd.c`. An object has a class and a name; `access` is given a
path, finds the class by the path's beginning and looks for the name among the
objects of the class, in the order in which they were created. -/
namespace PosixRtos.Unistd

open PosixRtos.Kernel PosixRtos.Library.ByteMemory PosixRtos.Libc

def stdobjNameMax : Nat := 12

inductive StdobjType where
  | device
  | socket
  | fs
deriving DecidableEq

/-- The enumerator of a number below `STDOBJ_NUM_MAX`. -/
def StdobjType.ofNat? : Nat → Option StdobjType
  | 0 => some .device
  | 1 => some .socket
  | 2 => some .fs
  | _ => none

/-- The classes in the order in which `access` tries them. -/
def stdobjTypes : List StdobjType := [.device, .socket, .fs]

def stdobjName : StdobjType → List Byte
  | .device => text "/dev/"
  | .socket => text "/socket/"
  | .fs => text "/fd/"

/-- A string in memory, with the bytes behind its NUL. -/
structure StringAt where
  text : List Byte
  closed : (0 : Byte) ∉ text
  behind : Nat → Byte

def StringAt.byte (s : StringAt) (i : Nat) : Byte :=
  (s.text ++ [0])[i]?.getD (s.behind (i - (s.text.length + 1)))

structure Stdobj where
  handle : Nat
  name : Vector Byte stdobjNameMax
  stdops : Nat

/-- The lists of objects, and the flag of each `struct stdops`. -/
structure Registry where
  stdobjList : StdobjType → List Stdobj
  flag : Nat → Int

/-- The arguments of a call and the block that `zalloc` has returned to it. -/
structure Creation where
  obj : Nat
  name : StringAt
  stdops : Nat
  block : Option Nat

def stdobjInit (flag : Nat → Int) : Registry := ⟨fun _ => [], flag⟩

/-- `memcpy` takes eleven bytes, whatever the length of the string; `zalloc` has
cleared the last one. -/
def copyName (name : StringAt) : Vector Byte stdobjNameMax :=
  .ofFn fun i => if i.val < stdobjNameMax - 1 then name.byte i else 0

def stdobjCreate (reg : Registry) (c : Creation) : Registry × Int :=
  match StdobjType.ofNat? c.obj with
  | none => (reg, -EINVAL)
  | some obj =>
      if c.stdops = 0 then (reg, -EINVAL)
      else
        match c.block with
        | none => (reg, -EINVAL)
        | some handle =>
            let stdobj := { handle := handle, name := copyName c.name, stdops := c.stdops }
            ({ reg with
              stdobjList := Function.update reg.stdobjList obj
                (reg.stdobjList obj ++ [stdobj]) }, 0)

/-- How `access` returns: with no object, with the one that `open` refused, or with
the one that is open. -/
inductive Outcome where
  | absent
  | refused (stdobj : Stdobj)
  | opened (stdobj : Stdobj)

def Outcome.result : Outcome → Int
  | .absent => 0
  | .refused _ => -1
  | .opened stdobj => (BitVec.ofNat 32 stdobj.handle).toInt

def Outcome.selected : Outcome → Option Stdobj
  | .absent => none
  | .refused stdobj | .opened stdobj => some stdobj

/-- The loop over the classes. -/
def accessType (name : List Byte) : List StdobjType → Option (Option StdobjType)
  | [] => some none
  | type :: types => do
      let found ← strstr name (stdobjName type ++ [0])
      if found.isSome then some (some type) else accessType name types

/-- The loop over the objects of a class. -/
def accessName (str : List Byte) : List Stdobj → Option (Option Stdobj)
  | [] => some none
  | stdobj :: list => do
      let result ← strcmp stdobj.name.toList str
      if result = 0 then some (some stdobj) else accessName str list

/-- `access`; the path is NULL or the bytes from its pointer on. `opens` is what the
`open` of each `struct stdops` returns, `none` where there is none. -/
def access (reg : Registry) (opens : Nat → Option Int) (name : Option (List Byte)) (flag : Int) :
    Option (Registry × Outcome) :=
  match name with
  | none => some (reg, .absent)
  | some name => do
      match ← accessType name stdobjTypes with
      | none => some (reg, .absent)
      | some type => do
          let length ← strlen (stdobjName type ++ [0])
          match ← accessName (name.drop length) (reg.stdobjList type) with
          | none => some (reg, .absent)
          | some stdobj =>
              let reg := { reg with flag := Function.update reg.flag stdobj.stdops flag }
              if (opens stdobj.stdops).any (· < 0) then some (reg, .refused stdobj)
              else some (reg, .opened stdobj)

/-! What is created. -/

/-- An object that was created, with its class and its whole name. -/
structure Made where
  type : StdobjType
  name : StringAt
  stdobj : Stdobj
  copied : stdobj.name = copyName name

def Creation.made (c : Creation) : Option Made := do
  let type ← StdobjType.ofNat? c.obj
  let handle ← c.block
  if c.stdops = 0 then none
  else some ⟨type, c.name, ⟨handle, copyName c.name, c.stdops⟩, rfl⟩

def creates (flag : Nat → Int) (calls : List Creation) : Registry :=
  calls.foldl (fun reg c => (stdobjCreate reg c).1) (stdobjInit flag)

variable {reg : Registry} {c : Creation} {calls : List Creation} {type : StdobjType}
  {q str rest : List Byte}

theorem stdobjCreate_list (reg : Registry) (c : Creation) (type : StdobjType) :
    (stdobjCreate reg c).1.stdobjList type = reg.stdobjList type ++
      (c.made.toList.filter (·.type = type)).map Made.stdobj := by
  unfold stdobjCreate Creation.made
  cases StdobjType.ofNat? c.obj with
  | none => simp
  | some obj =>
    by_cases hops : c.stdops = 0
    · cases c.block <;> simp [hops]
    · cases c.block with
      | none => simp [hops]
      | some handle =>
        by_cases htype : obj = type
        · simp [hops, htype]
        · simp [hops, htype, Function.update_of_ne (Ne.symm htype)]

/-- Each list holds the objects of its class in the order of their creation. -/
theorem creates_list (flag : Nat → Int) (calls : List Creation) (type : StdobjType) :
    (creates flag calls).stdobjList type =
      ((calls.filterMap Creation.made).filter (·.type = type)).map Made.stdobj := by
  induction calls using List.reverseRecOn with
  | nil => rfl
  | append_singleton calls c ih =>
    have hlast : creates flag (calls ++ [c]) = (stdobjCreate (creates flag calls) c).1 := by
      simp [creates, List.foldl_append]
    rw [hlast, stdobjCreate_list, ih, List.filterMap_append, List.filter_append, List.map_append]
    cases hmade : c.made <;> simp [hmade]

/-! What is found. -/

/-- The part of a name that an object keeps. -/
def Made.kept (m : Made) : List Byte := m.name.text.take (stdobjNameMax - 1)

/-- The class that `access` decides for. -/
def firstType (q : List Byte) : Option StdobjType :=
  stdobjTypes.find? fun type => stdobjName type <:+: q

def lookup (made : List Made) (q : List Byte) : Option Made := do
  let type ← firstType q
  (made.filter (·.type = type)).find? fun m => m.kept = q.drop (stdobjName type).length

theorem StringAt.byte_text (s : StringAt) {i : Nat} (hi : i < s.text.length) :
    s.byte i = s.text[i] := by
  simp [StringAt.byte, List.getElem?_append_left hi, hi]

theorem StringAt.byte_end (s : StringAt) : s.byte s.text.length = 0 := by
  simp [StringAt.byte]

theorem copyName_getElem? (name : StringAt) {i : Nat} (hi : i < stdobjNameMax) :
    (copyName name).toList[i]? =
      some (if i < stdobjNameMax - 1 then name.byte i else 0) := by
  rw [Vector.getElem?_toList, copyName, Vector.getElem?_ofFn, dif_pos hi]

/-- The copy of a name is a string: what is kept of it, and a NUL. -/
theorem Made.stdobj_name (m : Made) : ∃ rest, m.stdobj.name.toList = m.kept ++ 0 :: rest := by
  have hkept : m.kept.length = min (stdobjNameMax - 1) m.name.text.length := List.length_take
  have hshort : m.kept.length < stdobjNameMax := by
    rw [hkept]
    exact (min_le_left _ _).trans_lt (by decide)
  rw [m.copied]
  have hfront : (copyName m.name).toList.take m.kept.length = m.kept := by
    apply List.ext_getElem?
    intro i
    by_cases hi : i < m.kept.length
    · have hmax : i < stdobjNameMax - 1 := by omega
      have htext : i < m.name.text.length := by omega
      rw [List.getElem?_take_of_lt hi, copyName_getElem? _ (by omega), if_pos hmax,
        StringAt.byte_text _ htext, Made.kept, List.getElem?_take_of_lt hmax,
        List.getElem?_eq_getElem htext]
    · rw [List.getElem?_take_eq_none (not_lt.mp hi), List.getElem?_eq_none (not_lt.mp hi)]
  have hend : (copyName m.name).toList[m.kept.length]? = some 0 := by
    rw [copyName_getElem? _ hshort]
    split
    next hmax =>
      have hwhole : m.kept.length = m.name.text.length := by omega
      rw [hwhole, StringAt.byte_end]
    next => rfl
  obtain ⟨hlength, hzero⟩ := List.getElem?_eq_some_iff.mp hend
  refine ⟨(copyName m.name).toList.drop (m.kept.length + 1), ?_⟩
  calc (copyName m.name).toList
    _ = (copyName m.name).toList.take m.kept.length ++
        (copyName m.name).toList.drop m.kept.length := (List.take_append_drop _ _).symm
    _ = _ := by rw [hfront, List.drop_eq_getElem_cons hlength, hzero]

theorem Made.kept_closed (m : Made) : (0 : Byte) ∉ m.kept := fun hzero =>
  m.name.closed (List.mem_of_mem_take hzero)

theorem accessName_eq (hstr : (0 : Byte) ∉ str) (rest : List Byte) (made : List Made) :
    accessName (str ++ 0 :: rest) (made.map Made.stdobj) =
      some ((made.find? fun m => m.kept = str).map Made.stdobj) := by
  induction made with
  | nil => rfl
  | cons m made ih =>
    obtain ⟨behind, hname⟩ := m.stdobj_name
    obtain ⟨d, hd, hzero⟩ := strcmp_text m.kept_closed hstr behind rest
    rw [List.map_cons, accessName, hname, hd, Option.bind_eq_bind, Option.bind_some]
    by_cases hsame : m.kept = str
    · rw [if_pos (hzero.mpr hsame), List.find?_cons_of_pos (by simpa using hsame)]
      rfl
    · rw [if_neg (mt hzero.mp hsame), List.find?_cons_of_neg (by simpa using hsame), ih]

theorem stdobjName_closed (type : StdobjType) : (0 : Byte) ∉ stdobjName type := by
  cases type <;> decide

theorem stdobjName_ne_nil (type : StdobjType) : stdobjName type ≠ [] := by
  cases type <;> decide

theorem accessType_eq (hq : (0 : Byte) ∉ q) (rest : List Byte) (types : List StdobjType) :
    accessType (q ++ 0 :: rest) types =
      some (types.find? fun type => stdobjName type <:+: q) := by
  induction types with
  | nil => rfl
  | cons type types ih =>
    have hshort : (stdobjName type).length ≤ 2 ^ 32 := by cases type <;> decide
    rw [accessType, strstr_eq hq (stdobjName_closed type) (stdobjName_ne_nil type) (.inr hshort),
      Option.bind_eq_bind, Option.bind_some]
    by_cases hfound : stdobjName type <:+: q
    · rw [if_pos (occurrence_isSome_iff.mpr hfound), List.find?_cons_of_pos (by simpa using hfound)]
    · rw [if_neg (mt occurrence_isSome_iff.mp hfound),
        List.find?_cons_of_neg (by simpa using hfound), ih]

theorem infix_of_firstType (h : firstType q = some type) : stdobjName type <:+: q := by
  simpa using List.find?_some h

/-- `access` returns, and it has selected what `lookup` finds. -/
theorem access_eq (flag : Nat → Int) (calls : List Creation) (opens : Nat → Option Int)
    (hq : (0 : Byte) ∉ q) (rest : List Byte) (mode : Int) :
    ∃ reg outcome, access (creates flag calls) opens (some (q ++ 0 :: rest)) mode =
        some (reg, outcome) ∧
      outcome.selected = (lookup (calls.filterMap Creation.made) q).map Made.stdobj ∧
      (outcome.selected = none → outcome.result = 0) := by
  have hfirst : accessType (q ++ 0 :: rest) stdobjTypes = some (firstType q) :=
    accessType_eq hq rest stdobjTypes
  rw [lookup, access, hfirst, Option.bind_eq_bind, Option.bind_some]
  cases htype : firstType q with
  | none => exact ⟨_, .absent, rfl, rfl, fun _ => rfl⟩
  | some type =>
    have hlength : (stdobjName type).length ≤ q.length := (infix_of_firstType htype).length_le
    have hstr : (0 : Byte) ∉ q.drop (stdobjName type).length := fun hzero =>
      hq (List.mem_of_mem_drop hzero)
    have hdrop : (q ++ 0 :: rest).drop (stdobjName type).length =
        q.drop (stdobjName type).length ++ 0 :: rest := List.drop_append_of_le_length hlength
    simp only [strlen_text (stdobjName_closed type), hdrop, creates_list,
      accessName_eq hstr rest, Option.bind_eq_bind, Option.bind_some]
    cases hfound : ((calls.filterMap Creation.made).filter (·.type = type)).find?
        fun m => m.kept = q.drop (stdobjName type).length with
    | none => exact ⟨_, .absent, rfl, rfl, fun _ => rfl⟩
    | some m =>
      simp only [Option.map_some]
      split
      · exact ⟨_, .refused m.stdobj, rfl, rfl, fun hnone => nomatch hnone⟩
      · exact ⟨_, .opened m.stdobj, rfl, rfl, fun hnone => nomatch hnone⟩

end PosixRtos.Unistd
