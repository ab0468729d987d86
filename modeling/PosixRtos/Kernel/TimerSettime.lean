import PosixRtos.Library.ByteMemory
import PosixRtos.Kernel.TimerThread

/-! The stores of `timer_settime`. `ITIMERSPECT_COPY` is four statements, and behind
an `if` without braces only the first of them is guarded: the other three are
executed for a NULL `ovalue` as well. -/
namespace PosixRtos.Kernel

open PosixRtos.Library.ByteMemory

/-- The memory, and the words that have been stored to, latest first. -/
structure Bus where
  memory : Memory
  stored : List Nat

def Bus.store (bus : Bus) (a value : Nat) : Bus :=
  ⟨store32 bus.memory a value, a :: bus.stored⟩

/-! The fields of a `struct itimerspect`, and its place in a `struct __timer`. -/

def itIntervalSec : Nat := 0
def itIntervalNsec : Nat := 4
def itValueSec : Nat := 8
def itValueNsec : Nat := 12
def sizeofItimerspect : Nat := 16

def itimerspectField : Nat := 12

/-- The record at an address. -/
def itimerspectAt (memory : Memory) (a : Nat) : Itimerspect :=
  let field (offset : Nat) : BitVec 32 := BitVec.ofNat 32 (load32 memory (a + offset))
  ⟨⟨field itIntervalSec, field itIntervalNsec⟩, ⟨field itValueSec, field itValueNsec⟩⟩

/-- `form->field = to->field`; `src` is the macro's `to`. -/
def Bus.assign (bus : Bus) (form src field : Nat) : Bus :=
  bus.store (form + field) (load32 bus.memory (src + field))

def itimerspectCopy (bus : Bus) (form src : Nat) : Bus :=
  let bus := bus.assign form src itIntervalNsec
  let bus := bus.assign form src itIntervalSec
  let bus := bus.assign form src itValueNsec
  bus.assign form src itValueSec

/-- `timer_settime`, with the macro written out where it is the body of the `if`. -/
def timerSettime (bus : Bus) (timerid value ovalue : Nat) : Bus × Int :=
  if timerid = 0 ∨ value = 0 then (bus, -EINVAL)
  else
    let plan := timerid + itimerspectField
    let bus := if ovalue ≠ 0 then bus.assign ovalue plan itIntervalNsec else bus
    let bus := bus.assign ovalue plan itIntervalSec
    let bus := bus.assign ovalue plan itValueNsec
    let bus := bus.assign ovalue plan itValueSec
    (itimerspectCopy bus plan value, 0)

/-- The address lies in the record at `a`. -/
def InRecord (a x : Nat) : Prop := a ≤ x ∧ x < a + sizeofItimerspect

instance (a x : Nat) : Decidable (InRecord a x) := inferInstanceAs (Decidable (_ ∧ _))

/-- Two records do not overlap. -/
def Apart (a b : Nat) : Prop := a + sizeofItimerspect ≤ b ∨ b + sizeofItimerspect ≤ a

/-- What a call with the result `ret` is expected to do. -/
structure Settime (memory : Memory) (timerid value ovalue : Nat) (bus : Bus) (ret : Int) :
    Prop where
  armed : ret = 0 → itimerspectAt bus.memory (timerid + itimerspectField) =
    itimerspectAt memory value
  old : ret = 0 → ovalue ≠ 0 → itimerspectAt bus.memory ovalue =
    itimerspectAt memory (timerid + itimerspectField)
  stored : ret = 0 → ∀ a ∈ bus.stored,
    InRecord (timerid + itimerspectField) a ∨ ovalue ≠ 0 ∧ InRecord ovalue a
  frame : ret = 0 → ∀ x, ¬ InRecord (timerid + itimerspectField) x →
    (ovalue ≠ 0 → ¬ InRecord ovalue x) → bus.memory x = memory x
  refused : ret = -EINVAL → bus = ⟨memory, []⟩

/-- Where the caller's two records overlap, the new value already holds the bytes
of the old plan that are copied there. -/
def OverlapAgrees (memory : Memory) (timerid value ovalue : Nat) : Prop :=
  ∀ x, InRecord value x → InRecord ovalue x →
    memory x = memory (timerid + itimerspectField + (x - ovalue))

variable {bus : Bus} {memory memory' : Memory} {form src field timerid value ovalue a b x : Nat}

/-! One assignment, and the macro. -/

theorem Bus.assign_memory (bus : Bus) (form src field x : Nat) :
    (bus.assign form src field).memory x = if form + field ≤ x ∧ x < form + field + 4 then
      bus.memory (src + field + (x - (form + field))) else bus.memory x := by
  unfold Bus.assign Bus.store store32
  dsimp only
  rw [wordBytes_load32, write_read_apply]

/-- An assignment leaves the record that it reads alone. -/
theorem Bus.assign_source (hapart : Apart form src) (hfield : field + 4 ≤ sizeofItimerspect)
    (hx : InRecord src x) : (bus.assign form src field).memory x = bus.memory x := by
  unfold Apart InRecord at *
  rw [Bus.assign_memory, if_neg (by omega)]

/-- Assignments of several fields, each of which may be read from the memory
before the first. -/
theorem assigns_memory (hapart : Apart form src) (fields : List Nat)
    (hfields : ∀ field ∈ fields, field + 4 ≤ sizeofItimerspect) (bus : Bus) (x : Nat) :
    (fields.foldl (fun bus field => bus.assign form src field) bus).memory x =
      if ∃ field ∈ fields, form + field ≤ x ∧ x < form + field + 4 then
        bus.memory (src + (x - form)) else bus.memory x := by
  induction fields generalizing bus with
  | nil => simp
  | cons field fields ih =>
    obtain ⟨hfield, hfields⟩ := List.forall_mem_cons.mp hfields
    rw [List.foldl_cons, ih hfields]
    by_cases hlater : ∃ field ∈ fields, form + field ≤ x ∧ x < form + field + 4
    · obtain ⟨later, hmem, hx⟩ := hlater
      have hle := hfields later hmem
      have hsource : InRecord src (src + (x - form)) := by
        unfold InRecord sizeofItimerspect at *
        omega
      rw [if_pos ⟨later, hmem, hx⟩, if_pos ⟨later, List.mem_cons_of_mem _ hmem, hx⟩,
        Bus.assign_source hapart hfield hsource]
    · rw [if_neg hlater, Bus.assign_memory]
      by_cases hfirst : form + field ≤ x ∧ x < form + field + 4
      · rw [if_pos hfirst, if_pos ⟨field, List.mem_cons_self, hfirst⟩]
        exact congrArg bus.memory (by omega)
      · have hnone : ¬ ∃ f ∈ field :: fields, form + f ≤ x ∧ x < form + f + 4 := by
          rw [List.exists_mem_cons_iff]
          exact not_or.mpr ⟨hfirst, hlater⟩
        rw [if_neg hfirst, if_neg hnone]

theorem itimerspectCopy_memory (hapart : Apart form src) (bus : Bus) (x : Nat) :
    (itimerspectCopy bus form src).memory x =
      if InRecord form x then bus.memory (src + (x - form)) else bus.memory x := by
  have hfold := assigns_memory hapart [4, 0, 12, 8] (by decide) bus x
  have hinside : (∃ field ∈ [4, 0, 12, 8], form + field ≤ x ∧ x < form + field + 4) ↔
      InRecord form x := by
    unfold InRecord sizeofItimerspect
    simp only [List.mem_cons, List.not_mem_nil, or_false, exists_eq_or_imp, exists_eq_left]
    omega
  rw [← if_congr hinside rfl rfl]
  exact hfold

theorem itimerspectCopy_stored (bus : Bus) (form src : Nat) :
    (itimerspectCopy bus form src).stored = [form + 8, form + 12, form, form + 4] ++ bus.stored :=
  rfl

/-- Equal records have equal bytes. -/
theorem itimerspectAt_eq_iff : itimerspectAt memory a = itimerspectAt memory' b ↔
    ∀ i < sizeofItimerspect, memory (a + i) = memory' (b + i) := by
  have hword : ∀ field, BitVec.ofNat 32 (load32 memory (a + field)) =
      BitVec.ofNat 32 (load32 memory' (b + field)) ↔
        ∀ i < 4, memory (a + field + i) = memory' (b + field + i) := by
    intro field
    rw [← load32_eq_iff, ← BitVec.toNat_inj, BitVec.toNat_ofNat, BitVec.toNat_ofNat,
      Nat.mod_eq_of_lt (load32_lt _ _), Nat.mod_eq_of_lt (load32_lt _ _)]
  unfold itimerspectAt
  simp only [Itimerspect.mk.injEq, Timespec.mk.injEq, hword, itIntervalSec, itIntervalNsec,
    itValueSec, itValueNsec]
  constructor
  · rintro ⟨⟨h₀, h₄⟩, h₈, h₁₂⟩ i hi
    have hbyte : ∀ field, (∀ j < 4, memory (a + field + j) = memory' (b + field + j)) →
        field ≤ i → i < field + 4 → memory (a + i) = memory' (b + i) := by
      intro field h hle hlt
      have hj := h (i - field) (by omega)
      rwa [Nat.add_assoc, Nat.add_assoc, Nat.add_sub_cancel' hle] at hj
    have hfields : i < 4 ∨ 4 ≤ i ∧ i < 8 ∨ 8 ≤ i ∧ i < 12 ∨ 12 ≤ i ∧ i < 16 := by
      unfold sizeofItimerspect at hi
      omega
    rcases hfields with hlt | ⟨hle, hlt⟩ | ⟨hle, hlt⟩ | ⟨hle, hlt⟩
    · exact hbyte 0 h₀ (Nat.zero_le i) hlt
    · exact hbyte 4 h₄ hle hlt
    · exact hbyte 8 h₈ hle hlt
    · exact hbyte 12 h₁₂ hle hlt
  · intro h
    have hfield : ∀ field, field + 4 ≤ sizeofItimerspect → ∀ j < 4,
        memory (a + field + j) = memory' (b + field + j) := by
      intro field hfield j hj
      rw [Nat.add_assoc, Nat.add_assoc]
      exact h (field + j) (by omega)
    exact ⟨⟨hfield 0 (by decide), hfield 4 (by decide)⟩, hfield 8 (by decide),
      hfield 12 (by decide)⟩

/-! The call. -/

theorem timerSettime_null (hargs : ¬ (timerid = 0 ∨ value = 0)) :
    0 ∈ (timerSettime ⟨memory, []⟩ timerid value 0).1.stored := by
  unfold timerSettime
  rw [if_neg hargs]
  dsimp only
  rw [itimerspectCopy_stored, if_neg (by simp)]
  simp [Bus.assign, Bus.store, itIntervalSec]

/-- The timer is armed all the same, if its plan and the new value do not lie at the
address 0: this is what every caller in the tree asks for. -/
theorem timerSettime_null_arms (hargs : ¬ (timerid = 0 ∨ value = 0))
    (hvalue : Apart (timerid + itimerspectField) value)
    (hplan : sizeofItimerspect ≤ timerid + itimerspectField) (hhigh : sizeofItimerspect ≤ value) :
    itimerspectAt (timerSettime ⟨memory, []⟩ timerid value 0).1.memory
        (timerid + itimerspectField) = itimerspectAt memory value := by
  generalize hbus : [itIntervalSec, itValueNsec, itValueSec].foldl
    (fun (bus : Bus) field => bus.assign 0 (timerid + itimerspectField) field)
    ⟨memory, []⟩ = bus
  have hcall : (timerSettime ⟨memory, []⟩ timerid value 0).1 =
      itimerspectCopy bus (timerid + itimerspectField) value := by
    rw [← hbus]
    unfold timerSettime
    rw [if_neg hargs]
    simp only [ne_eq, not_true_eq_false, if_false, List.foldl_cons, List.foldl_nil]
  have hkeep : ∀ x, sizeofItimerspect ≤ x → bus.memory x = memory x := by
    intro x hx
    have hapart : Apart 0 (timerid + itimerspectField) := .inl (by omega)
    rw [← hbus, assigns_memory hapart _ (by decide), if_neg]
    unfold sizeofItimerspect at hx
    simp only [itIntervalSec, itValueNsec, itValueSec, List.mem_cons, List.not_mem_nil, or_false,
      exists_eq_or_imp, exists_eq_left]
    omega
  rw [itimerspectAt_eq_iff, hcall]
  intro i hi
  rw [itimerspectCopy_memory hvalue, if_pos ⟨Nat.le_add_right _ _, by omega⟩,
    Nat.add_sub_cancel_left, hkeep _ (by omega)]

/-- The old plan is copied to the caller, and the new one to the timer. -/
def exchange (memory : Memory) (plan value ovalue : Nat) : Bus :=
  itimerspectCopy (itimerspectCopy ⟨memory, []⟩ ovalue plan) plan value

theorem timerSettime_some (hargs : ¬ (timerid = 0 ∨ value = 0)) (hovalue : ovalue ≠ 0) :
    timerSettime ⟨memory, []⟩ timerid value ovalue =
      (exchange memory (timerid + itimerspectField) value ovalue, 0) := by
  unfold timerSettime
  rw [if_neg hargs]
  dsimp only
  rw [if_pos hovalue]
  rfl

section Exchange

variable {plan : Nat} (hvalue : Apart plan value) (hcaller : Apart ovalue plan)
include hvalue hcaller

theorem exchange_memory (x : Nat) : (exchange memory plan value ovalue).memory x =
    if InRecord plan x then
      if InRecord ovalue (value + (x - plan)) then
        memory (plan + (value + (x - plan) - ovalue)) else memory (value + (x - plan))
    else if InRecord ovalue x then memory (plan + (x - ovalue)) else memory x := by
  unfold exchange
  rw [itimerspectCopy_memory hvalue, itimerspectCopy_memory hcaller,
    itimerspectCopy_memory hcaller]

theorem exchange_armed_iff (memory : Memory) :
    itimerspectAt (exchange memory plan value ovalue).memory plan = itimerspectAt memory value ↔
      ∀ x, InRecord value x → InRecord ovalue x → memory x = memory (plan + (x - ovalue)) := by
  have hbyte : ∀ i < sizeofItimerspect, (exchange memory plan value ovalue).memory (plan + i) =
      if InRecord ovalue (value + i) then memory (plan + (value + i - ovalue))
      else memory (value + i) := by
    intro i hi
    rw [exchange_memory hvalue hcaller, if_pos ⟨Nat.le_add_right _ _, by omega⟩,
      Nat.add_sub_cancel_left]
  rw [itimerspectAt_eq_iff]
  constructor
  · rintro h x ⟨hle, hlt⟩ hx
    obtain ⟨i, rfl⟩ := Nat.exists_eq_add_of_le hle
    have hi := h i (by omega)
    rw [hbyte i (by omega), if_pos hx] at hi
    exact hi.symm
  · intro h i hi
    rw [hbyte i hi]
    split
    · next hx => exact (h _ ⟨Nat.le_add_right _ _, by omega⟩ hx).symm
    · rfl

theorem exchange_old : itimerspectAt (exchange memory plan value ovalue).memory ovalue =
    itimerspectAt memory plan := by
  rw [itimerspectAt_eq_iff]
  intro i hi
  have hin : InRecord ovalue (ovalue + i) := ⟨Nat.le_add_right _ _, by omega⟩
  have hout : ¬ InRecord plan (ovalue + i) := by
    unfold Apart InRecord at *
    omega
  rw [exchange_memory hvalue hcaller, if_neg hout, if_pos hin, Nat.add_sub_cancel_left]

theorem exchange_frame (hplan : ¬ InRecord plan x) (hx : ¬ InRecord ovalue x) :
    (exchange memory plan value ovalue).memory x = memory x := by
  rw [exchange_memory hvalue hcaller, if_neg hplan, if_neg hx]

end Exchange

theorem exchange_stored {plan : Nat} (ha : a ∈ (exchange memory plan value ovalue).stored) :
    InRecord plan a ∨ InRecord ovalue a := by
  unfold exchange at ha
  rw [itimerspectCopy_stored, itimerspectCopy_stored] at ha
  unfold InRecord sizeofItimerspect
  simp only [List.cons_append, List.nil_append, List.append_nil, List.mem_cons,
    List.not_mem_nil, or_false] at ha
  omega

/-- `timer_settime` does what it says exactly if it refuses the call, or gets a
record for the old value that does not spoil the new one. The timer's own record is
known to nobody but `time.c`, and lies apart from those of the caller. -/
theorem settime_exact_iff (hvalue : Apart (timerid + itimerspectField) value)
    (hovalue : ovalue ≠ 0 → Apart ovalue (timerid + itimerspectField)) :
    Settime memory timerid value ovalue (timerSettime ⟨memory, []⟩ timerid value ovalue).1
        (timerSettime ⟨memory, []⟩ timerid value ovalue).2 ↔
      timerid = 0 ∨ value = 0 ∨ ovalue ≠ 0 ∧ OverlapAgrees memory timerid value ovalue := by
  by_cases hargs : timerid = 0 ∨ value = 0
  · refine iff_of_true ?_ (hargs.imp_right .inl)
    unfold timerSettime
    rw [if_pos hargs]
    have hret : (-EINVAL : Int) ≠ 0 := by decide
    exact ⟨(absurd · hret), (absurd · hret), (absurd · hret), (absurd · hret), fun _ => rfl⟩
  rw [← or_assoc, or_iff_right hargs]
  by_cases hnull : ovalue = 0
  · subst hnull
    refine iff_of_false (fun hspec => ?_) (by simp)
    have hret : (timerSettime ⟨memory, []⟩ timerid value 0).2 = 0 := by
      unfold timerSettime
      rw [if_neg hargs]
    rcases hspec.stored hret 0 (timerSettime_null hargs) with hin | ⟨hne, -⟩
    · unfold InRecord at hin
      omega
    · exact hne rfl
  · have hcaller := hovalue hnull
    rw [timerSettime_some hargs hnull, and_iff_right hnull]
    have harmed := exchange_armed_iff hvalue hcaller memory
    constructor
    · exact fun hspec => harmed.mp (hspec.armed rfl)
    · intro hagrees
      refine ⟨fun _ => harmed.mpr hagrees, fun _ _ => exchange_old hvalue hcaller,
        fun _ a ha => (exchange_stored ha).imp_right fun h => ⟨hnull, h⟩,
        fun _ x hx hx' => exchange_frame hvalue hcaller hx (hx' hnull), fun h => ?_⟩
      have hret : (0 : Int) ≠ -EINVAL := by decide
      exact absurd h hret

/-- A timer and two records of the caller. -/
theorem settime_replaces :
    Apart 0x2000010c 0x20000200 ∧ Apart 0x20000300 0x2000010c ∧
      (Settime (fun _ => 0) 0x20000100 0x20000200 0x20000300
          (timerSettime ⟨fun _ => 0, []⟩ 0x20000100 0x20000200 0x20000300).1
          (timerSettime ⟨fun _ => 0, []⟩ 0x20000100 0x20000200 0x20000300).2 ↔
        (0x20000100 : Nat) = 0 ∨ (0x20000200 : Nat) = 0 ∨ (0x20000300 : Nat) ≠ 0 ∧
          OverlapAgrees (fun _ => 0) 0x20000100 0x20000200 0x20000300) := by
  have hvalue : Apart 0x2000010c 0x20000200 := .inl (by decide)
  have hovalue : Apart 0x20000300 0x2000010c := .inr (by decide)
  exact ⟨hvalue, hovalue, settime_exact_iff hvalue fun _ => hovalue⟩

/-- A timer with an interval of 7 seconds. -/
def sevenSeconds : Memory := Function.update (fun _ => 0) 0x2000010c 7

/-- Without a record for the old value, the seconds of the old interval are stored
at the address 0. -/
theorem null_ovalue_is_written :
    (timerSettime ⟨sevenSeconds, []⟩ 0x20000100 0x20000200 0).1.memory 0 = 7 ∧
      sevenSeconds 0 = 0 ∧
      ¬ Settime sevenSeconds 0x20000100 0x20000200 0
        (timerSettime ⟨sevenSeconds, []⟩ 0x20000100 0x20000200 0).1
        (timerSettime ⟨sevenSeconds, []⟩ 0x20000100 0x20000200 0).2 := by
  have hstored : 0 ∈ (timerSettime ⟨sevenSeconds, []⟩ 0x20000100 0x20000200 0).1.stored :=
    timerSettime_null (by decide)
  refine ⟨by decide +kernel, rfl, fun hspec => ?_⟩
  rcases hspec.stored rfl 0 hstored with ⟨hin, -⟩ | ⟨hne, -⟩
  · exact absurd hin (by decide)
  · exact hne rfl

end PosixRtos.Kernel
