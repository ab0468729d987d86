import PosixRtos.Library.ByteMemory

/-! `mmc_send_cmd` of `mmc.c`. The card answers each byte that is clocked out with the next
byte of its stream. Whether there was a response is read off the counter, which is 0 also
if the response is the last byte that was waited for. -/
namespace PosixRtos.Drivers

open PosixRtos.Library.ByteMemory

inductive MmcEvent where
  | select
  | readWrite (byte : Byte)
  | release

/-- `position` counts the bytes that the card has returned. -/
structure MmcBus where
  position : Nat
  log : List MmcEvent

def dummyByte : Byte := 0xff

/-- `SD_RESPONSE_FAILURE`. -/
def sdResponseFailure : Int := 0xff

def mmcAttempts : Nat := 2000

variable (card : Nat → Byte)

def readWrite (bus : MmcBus) (byte : Byte) : MmcBus × Byte :=
  (⟨bus.position + 1, bus.log ++ [.readWrite byte]⟩, card bus.position)

def MmcBus.note (bus : MmcBus) (event : MmcEvent) : MmcBus :=
  { bus with log := bus.log ++ [event] }

/-- The six bytes of a command. -/
def mmcFrame (cmd : Byte) (arg : BitVec 32) (crc : Byte) : List Byte :=
  [cmd ||| 0x40, (arg >>> 24).setWidth 8, (arg >>> 16).setWidth 8, (arg >>> 8).setWidth 8,
    (arg >>> 0).setWidth 8, crc]

def sendFrame (bus : MmcBus) (frame : List Byte) : MmcBus :=
  frame.foldl (fun bus byte => (readWrite card bus byte).1) bus

/-- The loop that waits for the response: the bus, `resp` and `i` behind it. -/
def awaitResponse : Nat → MmcBus → MmcBus × Byte × Nat
  | 0, bus => (bus, dummyByte, 0)
  | i + 1, bus =>
      let (bus, resp) := readWrite card bus dummyByte
      if resp = dummyByte ∧ i ≠ 0 then awaitResponse i bus else (bus, resp, i)

def mmcSendCmd (bus : MmcBus) (cmd : Byte) (arg : BitVec 32) (crc : Byte) : MmcBus × Int :=
  let bus := bus.note .select
  let bus := sendFrame card bus (mmcFrame cmd arg crc)
  let (bus, resp, i) := awaitResponse card mmcAttempts bus
  let bus := bus.note .release
  if i ≠ 0 then (bus, resp.toNat) else (bus, sdResponseFailure)

/-- The bytes of the response, counted from the first one behind the frame. -/
def response (bus : MmcBus) (k : Nat) : Byte := card (bus.position + 6 + k)

/-- What a command is to do. The four bytes of the argument are its big-endian number. -/
structure SendsCommand (bus : MmcBus) (cmd : Byte) (arg : BitVec 32) (crc : Byte)
    (r : MmcBus × Int) : Prop where
  clocked : ∃ (a b c d : Byte) (polls : Nat),
    a.toNat * 2 ^ 24 + b.toNat * 2 ^ 16 + c.toNat * 2 ^ 8 + d.toNat = arg.toNat ∧
      polls ≤ mmcAttempts ∧
      r.1.log = bus.log ++ MmcEvent.select :: ([cmd ||| 0x40, a, b, c, d, crc] ++
        List.replicate polls dummyByte).map MmcEvent.readWrite ++ [MmcEvent.release]
  first : ∀ k < mmcAttempts, (∀ j < k, response card bus j = dummyByte) →
    response card bus k ≠ dummyByte → r.2 = (response card bus k).toNat
  failure : r.2 = sdResponseFailure ↔ ∀ k < mmcAttempts, response card bus k = dummyByte

/-- The first byte that is no dummy is not the last one that is waited for. -/
def RespondsInTime (bus : MmcBus) : Prop :=
  (∀ j < mmcAttempts - 1, response card bus j = dummyByte) →
    response card bus (mmcAttempts - 1) = dummyByte

variable {card} {bus : MmcBus} {n k : Nat}

/-- The bus after `n` dummy bytes. -/
def MmcBus.polled (bus : MmcBus) (n : Nat) : MmcBus :=
  ⟨bus.position + n, bus.log ++ (List.replicate n dummyByte).map .readWrite⟩

theorem MmcBus.polled_succ (bus : MmcBus) (n : Nat) :
    (readWrite card bus dummyByte).1.polled n = bus.polled (n + 1) := by
  unfold MmcBus.polled readWrite
  rw [List.replicate_succ, List.map_cons, List.append_assoc]
  dsimp only
  rw [Nat.add_assoc, Nat.add_comm 1]
  rfl

theorem MmcBus.polled_zero (bus : MmcBus) : bus.polled 0 = bus := by
  rw [MmcBus.polled, List.replicate_zero, List.map_nil, List.append_nil, Nat.add_zero]

theorem awaitResponse_succ (card : Nat → Byte) (n : Nat) (bus : MmcBus) :
    awaitResponse card (n + 1) bus =
      if card bus.position = dummyByte ∧ n ≠ 0 then
        awaitResponse card n (readWrite card bus dummyByte).1
      else ((readWrite card bus dummyByte).1, card bus.position, n) := rfl

theorem readWrite_position (card : Nat → Byte) (bus : MmcBus) (byte : Byte) (j : Nat) :
    card ((readWrite card bus byte).1.position + j) = card (bus.position + (j + 1)) := by
  rw [Nat.add_comm j, ← Nat.add_assoc]
  rfl

/-- The loop ends at the first byte that is no dummy. -/
theorem awaitResponse_first (hk : k < n) (hbefore : ∀ j < k, card (bus.position + j) = dummyByte)
    (hfirst : card (bus.position + k) ≠ dummyByte) :
    awaitResponse card n bus = (bus.polled (k + 1), card (bus.position + k), n - (k + 1)) := by
  induction n generalizing bus k with
  | zero => exact absurd hk (Nat.not_lt_zero k)
  | succ n ih =>
    rw [awaitResponse_succ]
    cases k with
    | zero =>
      rw [if_neg fun h => hfirst h.1]
      rfl
    | succ k =>
      have hdummy : card bus.position = dummyByte := hbefore 0 (Nat.succ_pos k)
      have hrec := @ih (readWrite card bus dummyByte).1 k (Nat.lt_of_succ_lt_succ hk)
        (fun j hj => (readWrite_position card bus _ j).trans
          (hbefore (j + 1) (Nat.succ_lt_succ hj)))
        (by rwa [readWrite_position card bus dummyByte k])
      rw [if_pos ⟨hdummy, by omega⟩, hrec, MmcBus.polled_succ,
        readWrite_position card bus dummyByte k, Nat.succ_sub_succ]

/-- Only dummies. -/
theorem awaitResponse_none (hall : ∀ j < n, card (bus.position + j) = dummyByte) :
    awaitResponse card n bus = (bus.polled n, dummyByte, 0) := by
  induction n generalizing bus with
  | zero => rw [awaitResponse, bus.polled_zero]
  | succ n ih =>
    have hdummy : card bus.position = dummyByte := hall 0 (Nat.succ_pos n)
    have hrec := @ih (readWrite card bus dummyByte).1 fun j hj =>
      (readWrite_position card bus _ j).trans (hall (j + 1) (Nat.succ_lt_succ hj))
    rw [awaitResponse_succ]
    by_cases hn : n = 0
    · subst hn
      rw [if_neg fun h => h.2 rfl, hdummy, ← @MmcBus.polled_succ card, MmcBus.polled_zero]
    · rw [if_pos ⟨hdummy, hn⟩, hrec, MmcBus.polled_succ]

/-- The bus behind the frame. -/
theorem sendFrame_eq (card : Nat → Byte) (bus : MmcBus) (frame : List Byte) :
    sendFrame card bus frame =
      ⟨bus.position + frame.length, bus.log ++ frame.map .readWrite⟩ := by
  induction frame generalizing bus with
  | nil => rw [List.map_nil, List.append_nil]; rfl
  | cons byte frame ih =>
    change sendFrame card (readWrite card bus byte).1 frame = _
    rw [ih, readWrite]
    dsimp only
    rw [List.length_cons, List.map_cons, List.append_assoc, Nat.add_assoc, Nat.add_comm 1]
    rfl

/-- The bytes of the argument, the highest first. -/
theorem argument_bytes (arg : BitVec 32) : ((arg >>> 24).setWidth 8).toNat * 2 ^ 24 +
    ((arg >>> 16).setWidth 8).toNat * 2 ^ 16 + ((arg >>> 8).setWidth 8).toNat * 2 ^ 8 +
      ((arg >>> 0).setWidth 8).toNat = arg.toNat := by
  have hlt := arg.isLt
  simp only [BitVec.toNat_setWidth, BitVec.toNat_ushiftRight, Nat.shiftRight_eq_div_pow]
  omega

/-- The log of a command that has waited for `polls` bytes. -/
theorem command_log (bus : MmcBus) (cmd : Byte) (arg : BitVec 32) (crc : Byte) (polls : Nat) :
    (((sendFrame card (bus.note .select) (mmcFrame cmd arg crc)).polled polls).note .release).log =
      bus.log ++ MmcEvent.select :: (mmcFrame cmd arg crc ++
        List.replicate polls dummyByte).map MmcEvent.readWrite ++ [MmcEvent.release] := by
  rw [sendFrame_eq]
  unfold MmcBus.polled MmcBus.note
  simp only [List.append_assoc, List.map_append, List.cons_append, List.nil_append]

theorem sendFrame_position (bus : MmcBus) (cmd : Byte) (arg : BitVec 32) (crc : Byte) (k : Nat) :
    card ((sendFrame card (bus.note .select) (mmcFrame cmd arg crc)).position + k) =
      response card bus k := by
  rw [sendFrame_eq]
  rfl

/-- A byte that is no dummy is no failure. -/
theorem toNat_ne_failure {c : Byte} (hc : c ≠ dummyByte) : (c.toNat : Int) ≠ sdResponseFailure := by
  intro h
  apply hc
  apply BitVec.eq_of_toNat_eq
  exact Int.ofNat.inj h

/-- A command whose first response is the byte `k`. -/
theorem mmcSendCmd_first (cmd : Byte) (arg : BitVec 32) (crc : Byte) (hk : k < mmcAttempts)
    (hbefore : ∀ j < k, response card bus j = dummyByte)
    (hfirst : response card bus k ≠ dummyByte) :
    mmcSendCmd card bus cmd arg crc =
      (((sendFrame card (bus.note .select) (mmcFrame cmd arg crc)).polled (k + 1)).note .release,
        if mmcAttempts - (k + 1) ≠ 0 then ((response card bus k).toNat : Int)
          else sdResponseFailure) := by
  have hposition := @sendFrame_position card bus cmd arg crc
  have hwait := @awaitResponse_first card (sendFrame card (bus.note .select)
    (mmcFrame cmd arg crc)) mmcAttempts k hk (fun j hj => (hposition j).trans (hbefore j hj))
    (by rwa [hposition])
  unfold mmcSendCmd
  dsimp only
  rw [hwait, hposition]
  dsimp only
  by_cases hleft : mmcAttempts - (k + 1) = 0
  · rw [if_neg (not_not.mpr hleft), if_neg (not_not.mpr hleft)]
  · rw [if_pos hleft, if_pos hleft]

/-- A command that the card does not answer. -/
theorem mmcSendCmd_none (cmd : Byte) (arg : BitVec 32) (crc : Byte)
    (hall : ∀ k < mmcAttempts, response card bus k = dummyByte) :
    mmcSendCmd card bus cmd arg crc =
      (((sendFrame card (bus.note .select)
        (mmcFrame cmd arg crc)).polled mmcAttempts).note .release, sdResponseFailure) := by
  have hposition := @sendFrame_position card bus cmd arg crc
  have hwait := @awaitResponse_none card (sendFrame card (bus.note .select)
    (mmcFrame cmd arg crc)) mmcAttempts fun j hj => (hposition j).trans (hall j hj)
  unfold mmcSendCmd
  dsimp only
  rw [hwait]
  dsimp only
  rw [if_neg (not_not.mpr rfl)]

/-- The first byte that is no dummy, if there is one in time. -/
theorem response_cases (card : Nat → Byte) (bus : MmcBus) :
    (∃ k < mmcAttempts, (∀ j < k, response card bus j = dummyByte) ∧
      response card bus k ≠ dummyByte) ∨ ∀ k < mmcAttempts, response card bus k = dummyByte := by
  by_cases hany : ∃ k < mmcAttempts, response card bus k ≠ dummyByte
  · classical
    have hspec := Nat.find_spec hany
    refine .inl ⟨Nat.find hany, hspec.1, fun j hj => ?_, hspec.2⟩
    by_contra hne
    exact Nat.find_min hany hj ⟨hj.trans hspec.1, hne⟩
  · refine .inr fun k hk => ?_
    by_contra hne
    exact hany ⟨k, hk, hne⟩

/-- There is only one first byte. -/
theorem first_unique {k' : Nat} (hbefore : ∀ j < k, response card bus j = dummyByte)
    (hfirst : response card bus k ≠ dummyByte)
    (hbefore' : ∀ j < k', response card bus j = dummyByte)
    (hfirst' : response card bus k' ≠ dummyByte) : k' = k := by
  rcases Nat.lt_trichotomy k' k with hlt | heq | hlt
  · exact absurd (hbefore k' hlt) hfirst'
  · exact heq
  · exact absurd (hbefore' k hlt) hfirst

/-- The response is returned exactly if it is not the last byte that is waited for. -/
theorem command_answered_iff (card : Nat → Byte) (bus : MmcBus) (cmd : Byte) (arg : BitVec 32)
    (crc : Byte) :
    SendsCommand card bus cmd arg crc (mmcSendCmd card bus cmd arg crc) ↔
      RespondsInTime card bus := by
  rcases response_cases card bus with ⟨k, hk, hbefore, hfirst⟩ | hall
  · have hnotall : ¬ ∀ j < mmcAttempts, response card bus j = dummyByte :=
      fun hall => hfirst (hall k hk)
    rw [mmcSendCmd_first cmd arg crc hk hbefore hfirst]
    by_cases hlast : k = mmcAttempts - 1
    · subst hlast
      apply iff_of_false
      · intro h
        exact hnotall (h.failure.mp rfl)
      · intro h
        exact hfirst (h hbefore)
    · have hleft : mmcAttempts - (k + 1) ≠ 0 := by omega
      rw [if_pos hleft]
      apply iff_of_true
      · constructor
        · exact ⟨_, _, _, _, k + 1, argument_bytes arg, hk, command_log bus cmd arg crc (k + 1)⟩
        · intro k' _ hbefore' hfirst'
          rw [first_unique hbefore hfirst hbefore' hfirst']
        · exact iff_of_false (toNat_ne_failure hfirst) hnotall
      · intro h
        exact absurd (h k (by omega)) hfirst
  · rw [mmcSendCmd_none cmd arg crc hall]
    apply iff_of_true
    · constructor
      · exact ⟨_, _, _, _, mmcAttempts, argument_bytes arg, le_rfl,
          command_log bus cmd arg crc mmcAttempts⟩
      · intro k hk _ hfirst
        exact absurd (hall k hk) hfirst
      · exact iff_of_true rfl hall
    · intro _
      exact hall _ (by decide)

/-- An answer that comes as byte 2000. -/
def lateCard (n : Nat) : Byte := if n = 2005 then 0x01 else dummyByte

/-- The card is idle and the driver reports a failure. -/
theorem late_answer_is_lost : (mmcSendCmd lateCard ⟨0, []⟩ 0 0 0x95).2 = sdResponseFailure ∧
    ¬ SendsCommand lateCard ⟨0, []⟩ 0 0 0x95 (mmcSendCmd lateCard ⟨0, []⟩ 0 0 0x95) := by
  have hlate : response lateCard ⟨0, []⟩ 1999 ≠ dummyByte := by decide
  have hfailure : (mmcSendCmd lateCard ⟨0, []⟩ 0 0 0x95).2 = sdResponseFailure := by
    rw [mmcSendCmd_first 0 0 0x95 (show 1999 < mmcAttempts by decide) ?_ hlate]
    · rfl
    · intro j hj
      exact if_neg (by change 0 + 6 + j ≠ 2005; omega)
  refine ⟨hfailure, fun h => hlate (h.failure.mp hfailure 1999 (by decide))⟩

end PosixRtos.Drivers
