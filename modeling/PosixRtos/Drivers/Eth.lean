import PosixRtos.Library.Runs
import PosixRtos.Net.Pbuf

/-! `eth_tx_pkg` of `eth.c` over the ring that `ETH_DMATxDescChainInit` builds. The packet is
copied before the descriptor is looked at, and its length is never taken: `ippkg_unpack` gets
the address of `len` for a length. -/
namespace PosixRtos.Drivers

open PosixRtos.Library.ByteMemory PosixRtos.Library.Runs PosixRtos.Net

def ethTxBufNb : Nat := 2

def ethMaxPacketSize : Nat := 1520

def txDescOwn : BitVec 32 := 0x80000000

def txDescLs : BitVec 32 := 0x20000000

def txDescFs : BitVec 32 := 0x10000000

def txDescTch : BitVec 32 := 0x00100000

def txDescTbs1 : BitVec 32 := 0x00001fff

def dmasrTbus : BitVec 32 := 0x00000004

def errOk : Int := 0

def errIf : Int := -15

/-- A pointer to a descriptor is its place in the table. -/
structure TxDesc where
  status : BitVec 32
  controlBufferSize : BitVec 32
  buffer1Addr : Nat
  buffer2NextDescAddr : Nat

/-- `toSet` is `DMATxDescToSet`; `pollDemands` counts the writes to `DMATPDR`. -/
structure EthTx where
  desc : Nat → TxDesc
  toSet : Nat
  mem : Memory
  dmasr : BitVec 32
  pollDemands : Nat

/-- The body of the loop of `ETH_DMATxDescChainInit`. -/
def initTxDesc (txBuff count : Nat) (desc : Nat → TxDesc) (i : Nat) : Nat → TxDesc :=
  Function.update desc i { desc i with
    status := txDescTch
    buffer1Addr := txBuff + i * ethMaxPacketSize
    buffer2NextDescAddr := if i < count - 1 then i + 1 else 0 }

def ethDmaTxDescChainInit (s : EthTx) (txBuff count : Nat) : EthTx :=
  { s with
    toSet := 0
    desc := (List.range count).foldl (initTxDesc txBuff count) s.desc }

/-- A packet that belongs to its sender. -/
structure TxPacket where
  pbufs : Pbufs
  chain : Chain
  chained : Chained pbufs chain
  addressed : chain.Addressed
  distinct : chain.addresses.Nodup
  short : chain.bytes.length < 2 ^ 16

def TxPacket.bytes (packet : TxPacket) : List Byte := packet.chain.bytes

/-- A call of `eth_tx_pkg`. The local `len` lies in the RAM and has the value that was
there before. -/
structure TxCall where
  packet : TxPacket
  lenAddr : Nat
  len : BitVec 32
  inRam : 0x20000000 ≤ lenAddr

def EthTx.Owned (s : EthTx) (i : Nat) : Prop := (s.desc i).status &&& txDescOwn ≠ 0

instance EthTx.decidableOwned (s : EthTx) (i : Nat) : Decidable (s.Owned i) :=
  inferInstanceAs (Decidable (_ ≠ _))

/-- Writing the bit to the register clears it. -/
def EthTx.demandPoll (s : EthTx) : EthTx :=
  if s.dmasr &&& dmasrTbus ≠ 0 then
    { s with dmasr := s.dmasr &&& ~~~dmasrTbus, pollDemands := s.pollDemands + 1 }
  else s

/-- The descriptor goes to the DMA and the next one is to be set. -/
def EthTx.handOver (s : EthTx) (len : BitVec 32) : EthTx :=
  let d := s.desc s.toSet
  let d := { d with controlBufferSize := len &&& txDescTbs1 }
  let d := { d with status := d.status ||| (txDescLs ||| txDescFs) }
  let d := { d with status := d.status ||| txDescOwn }
  let s := { s with desc := Function.update s.desc s.toSet d }
  { s.demandPoll with toSet := d.buffer2NextDescAddr }

variable (txBuff : Nat)

def txBuffEnd : Nat := txBuff + ethTxBufNb * ethMaxPacketSize

/-- `eth_tx_pkg`; `none` is a copy that leaves `eth_phy_tx_buffer`. -/
def ethTxPkg (s : EthTx) (call : TxCall) : Option (EthTx × Int) := do
  let buffer := (s.desc s.toSet).buffer1Addr
  let (copied, bytes) ← ippkgUnpack call.packet.pbufs call.packet.chain.address
    (fun x => s.mem (buffer + x)) call.lenAddr
  if txBuffEnd txBuff < buffer + bytes then none
  else
    let s := { s with mem := fun x => if buffer ≤ x then copied (x - buffer) else s.mem x }
    if s.Owned s.toSet then some (s, errIf) else some (s.handOver call.len, errOk)

/-- The DMA has sent the frame of descriptor `i`. -/
def EthTx.complete (s : EthTx) (i : Nat) : EthTx :=
  let d := s.desc i
  { s with desc := Function.update s.desc i { d with status := d.status &&& ~~~txDescOwn } }

/-- The driver with the packet that was handed over last with each descriptor. -/
structure EthHistory where
  eth : EthTx
  handed : Nat → List Byte

inductive EthAct where
  | tx (call : TxCall)
  | complete (i : Nat)

def ethStep (h : EthHistory) : EthAct → Option EthHistory
  | .tx call => do
      let (eth, err) ← ethTxPkg txBuff h.eth call
      some ⟨eth, if err = errOk then Function.update h.handed h.eth.toSet call.packet.bytes
        else h.handed⟩
  | .complete i => if i < ethTxBufNb then some { h with eth := h.eth.complete i } else none

/-- The call changes the byte at `x` for some contents of the memory. -/
def EthTx.Writes (s : EthTx) (call : TxCall) (x : Nat) : Prop :=
  ∃ mem r, ethTxPkg txBuff { s with mem := mem } call = some r ∧ r.1.mem x ≠ mem x

/-- What a call is to do. -/
structure RespectsDma (s : EthTx) (call : TxCall) (r : EthTx × Int) : Prop where
  owned : ∀ i < ethTxBufNb, s.Owned i → ∀ x, (s.desc i).buffer1Addr ≤ x →
    x < (s.desc i).buffer1Addr + ethMaxPacketSize → ¬ s.Writes txBuff call x
  refused : r.2 = errIf → r.1.mem = s.mem ∧ r.1.desc = s.desc
  sent : r.2 = errOk → ¬ s.Owned s.toSet ∧ r.1.Owned s.toSet ∧
    call.packet.bytes.length ≤ ethMaxPacketSize ∧
    read r.1.mem (r.1.desc s.toSet).buffer1Addr call.packet.bytes.length = call.packet.bytes ∧
    (r.1.desc s.toSet).controlBufferSize.toNat = call.packet.bytes.length

/-- An owned descriptor and nothing to copy, or a free one, a packet that fits and its length
by chance in the lower bits of `len`. -/
def LengthByChance (s : EthTx) (call : TxCall) : Prop :=
  if s.Owned s.toSet then call.packet.bytes = []
  else call.packet.bytes.length ≤ ethMaxPacketSize ∧
    (call.len &&& txDescTbs1).toNat = call.packet.bytes.length

def callsByChance (h : EthHistory) : EthAct → Prop
  | .tx call => LengthByChance h.eth call
  | .complete _ => True

/-- What the DMA reads is what was handed over. -/
def EthHistory.Intact (h : EthHistory) : Prop :=
  ∀ i < ethTxBufNb, h.eth.Owned i → (h.handed i).length ≤ ethMaxPacketSize ∧
    read h.eth.mem (h.eth.desc i).buffer1Addr (h.handed i).length = h.handed i ∧
    (h.eth.desc i).controlBufferSize.toNat = (h.handed i).length

variable {txBuff} {s s' : EthTx} {call : TxCall} {r : EthTx × Int} {i j x : Nat}

/-! One call. -/

theorem write_shifted (mem : Memory) (buffer : Nat) (bytes : List Byte) :
    (fun x => if buffer ≤ x then write (fun x => mem (buffer + x)) 0 bytes (x - buffer)
      else mem x) = write mem buffer bytes := by
  funext x
  by_cases hx : buffer ≤ x
  · rw [if_pos hx]
    unfold write
    dsimp only
    rw [if_pos (Nat.zero_le _), if_pos hx, Nat.sub_zero, Nat.add_sub_cancel' hx]
  · rw [if_neg hx]
    exact (write_outside (.inl (Nat.lt_of_not_le hx))).symm

/-- The whole packet is copied, whatever the descriptor says. -/
theorem ethTxPkg_eq (txBuff : Nat) (s : EthTx) (call : TxCall) :
    ethTxPkg txBuff s call =
      if txBuffEnd txBuff < (s.desc s.toSet).buffer1Addr + call.packet.bytes.length then none
      else if s.Owned s.toSet then
        some ({ s with mem := write s.mem (s.desc s.toSet).buffer1Addr call.packet.bytes }, errIf)
      else some (EthTx.handOver { s with
        mem := write s.mem (s.desc s.toSet).buffer1Addr call.packet.bytes } call.len, errOk) := by
  have hshort := call.packet.short
  have hram := call.inRam
  have hall : call.packet.chain.bytes.length ≤ call.lenAddr := by omega
  unfold ethTxPkg TxPacket.bytes
  dsimp only
  rw [ippkgUnpack_chain call.packet.chained call.packet.addressed call.packet.distinct hshort,
    List.take_of_length_le hall, Nat.min_eq_right hall]
  simp only [Option.bind_eq_bind, Option.bind_some, write_shifted]
  rfl

@[simp] theorem handOver_mem (s : EthTx) (len : BitVec 32) : (s.handOver len).mem = s.mem := by
  unfold EthTx.handOver EthTx.demandPoll
  dsimp only
  split <;> rfl

theorem handOver_desc (s : EthTx) (len : BitVec 32) :
    (s.handOver len).desc = Function.update s.desc s.toSet
      ⟨(s.desc s.toSet).status ||| (txDescLs ||| txDescFs) ||| txDescOwn, len &&& txDescTbs1,
        (s.desc s.toSet).buffer1Addr, (s.desc s.toSet).buffer2NextDescAddr⟩ := by
  unfold EthTx.handOver EthTx.demandPoll
  dsimp only
  split <;> rfl

@[simp] theorem handOver_toSet (s : EthTx) (len : BitVec 32) :
    (s.handOver len).toSet = (s.desc s.toSet).buffer2NextDescAddr := rfl

/-- The two ways in which a call returns. -/
theorem ethTxPkg_cases (hcall : ethTxPkg txBuff s call = some r) :
    (s.desc s.toSet).buffer1Addr + call.packet.bytes.length ≤ txBuffEnd txBuff ∧
    ((s.Owned s.toSet ∧ r = ({ s with
        mem := write s.mem (s.desc s.toSet).buffer1Addr call.packet.bytes }, errIf)) ∨
      (¬ s.Owned s.toSet ∧ r = (EthTx.handOver { s with
        mem := write s.mem (s.desc s.toSet).buffer1Addr call.packet.bytes } call.len, errOk))) := by
  rw [ethTxPkg_eq] at hcall
  by_cases hend : txBuffEnd txBuff < (s.desc s.toSet).buffer1Addr + call.packet.bytes.length
  · rw [if_pos hend] at hcall
    cases hcall
  rw [if_neg hend] at hcall
  refine ⟨Nat.le_of_not_lt hend, ?_⟩
  by_cases howned : s.Owned s.toSet
  · rw [if_pos howned] at hcall
    exact .inl ⟨howned, (Option.some.inj hcall).symm⟩
  · rw [if_neg howned] at hcall
    exact .inr ⟨howned, (Option.some.inj hcall).symm⟩

/-- Both ways leave the same memory. -/
theorem ethTxPkg_mem (hcall : ethTxPkg txBuff s call = some r) :
    r.1.mem = write s.mem (s.desc s.toSet).buffer1Addr call.packet.bytes := by
  rcases (ethTxPkg_cases hcall).2 with ⟨-, rfl⟩ | ⟨-, rfl⟩
  · rfl
  · exact handOver_mem _ _

theorem EthTx.Writes.inside (h : s.Writes txBuff call x) :
    (s.desc s.toSet).buffer1Addr ≤ x ∧
      x < (s.desc s.toSet).buffer1Addr + call.packet.bytes.length := by
  obtain ⟨mem, r, hcall, hne⟩ := h
  rw [ethTxPkg_mem hcall] at hne
  by_contra hout
  exact hne (write_outside (by dsimp only; omega))

/-- The first byte of a packet is written, also to a buffer that the DMA reads. -/
theorem writes_first (hcall : ethTxPkg txBuff s call = some r) (hne : call.packet.bytes ≠ []) :
    s.Writes txBuff call (s.desc s.toSet).buffer1Addr := by
  obtain ⟨c, rest, hbytes⟩ := List.exists_cons_of_ne_nil hne
  have hend := (ethTxPkg_cases hcall).1
  -- a memory that has another byte there
  have hdefined : ∃ r', ethTxPkg txBuff { s with mem := fun _ => ~~~c } call = some r' := by
    rw [ethTxPkg_eq, if_neg (Nat.not_lt.mpr hend)]
    split
    · exact ⟨_, rfl⟩
    · exact ⟨_, rfl⟩
  obtain ⟨r', hcall'⟩ := hdefined
  refine ⟨fun _ => ~~~c, r', hcall', ?_⟩
  rw [ethTxPkg_mem hcall', hbytes]
  have hfirst := @write_inside (fun _ => ~~~c) (s.desc s.toSet).buffer1Addr (c :: rest) 0
    (Nat.succ_pos _)
  rw [Nat.add_zero] at hfirst
  dsimp only
  rw [hfirst, List.getElem_cons_zero]
  intro h
  have hbit := congrArg (fun b : Byte => b[0]) h
  simp at hbit

/-! The ring. -/

/-- The links of the ring and the places of its buffers. -/
structure OnRing (txBuff : Nat) (s : EthTx) : Prop where
  toSet : s.toSet < ethTxBufNb
  buffer : ∀ i < ethTxBufNb, (s.desc i).buffer1Addr = txBuff + i * ethMaxPacketSize
  next : ∀ i < ethTxBufNb, (s.desc i).buffer2NextDescAddr = (i + 1) % ethTxBufNb

theorem own_set (status : BitVec 32) : (status ||| txDescOwn) &&& txDescOwn ≠ 0 := by
  have hsame : (status ||| txDescOwn) &&& txDescOwn = txDescOwn := by
    ext k hk
    simpa using fun h => Or.inr h
  rw [hsame]
  decide

theorem own_cleared (status : BitVec 32) : (status &&& ~~~txDescOwn) &&& txDescOwn = 0 := by
  ext k hk
  simp

theorem OnRing.congr (hring : OnRing txBuff s) (htoSet : s'.toSet < ethTxBufNb)
    (hbuffer : ∀ i, (s'.desc i).buffer1Addr = (s.desc i).buffer1Addr)
    (hnext : ∀ i, (s'.desc i).buffer2NextDescAddr = (s.desc i).buffer2NextDescAddr) :
    OnRing txBuff s' where
  toSet := htoSet
  buffer i hi := (hbuffer i).trans (hring.buffer i hi)
  next i hi := (hnext i).trans (hring.next i hi)

theorem handOver_links (s : EthTx) (len : BitVec 32) (i : Nat) :
    ((s.handOver len).desc i).buffer1Addr = (s.desc i).buffer1Addr ∧
      ((s.handOver len).desc i).buffer2NextDescAddr = (s.desc i).buffer2NextDescAddr := by
  rw [handOver_desc]
  by_cases hi : i = s.toSet
  · subst hi
    rw [Function.update_self]
    exact ⟨rfl, rfl⟩
  · rw [Function.update_of_ne hi]
    exact ⟨rfl, rfl⟩

theorem OnRing.tx (hring : OnRing txBuff s) (hcall : ethTxPkg txBuff s call = some r) :
    OnRing txBuff r.1 := by
  rcases (ethTxPkg_cases hcall).2 with ⟨-, rfl⟩ | ⟨-, rfl⟩
  · exact hring.congr hring.toSet (fun _ => rfl) fun _ => rfl
  · apply hring.congr
    · rw [handOver_toSet]
      dsimp only
      rw [hring.next s.toSet hring.toSet]
      exact Nat.mod_lt _ (by decide)
    · exact fun i => (handOver_links _ _ i).1
    · exact fun i => (handOver_links _ _ i).2

theorem OnRing.complete (hring : OnRing txBuff s) (i : Nat) : OnRing txBuff (s.complete i) := by
  have hlinks : ∀ j, ((s.complete i).desc j).buffer1Addr = (s.desc j).buffer1Addr ∧
      ((s.complete i).desc j).buffer2NextDescAddr = (s.desc j).buffer2NextDescAddr := by
    intro j
    unfold EthTx.complete
    dsimp only
    by_cases hji : j = i
    · subst hji
      rw [Function.update_self]
      exact ⟨rfl, rfl⟩
    · rw [Function.update_of_ne hji]
      exact ⟨rfl, rfl⟩
  exact hring.congr hring.toSet (fun j => (hlinks j).1) fun j => (hlinks j).2

theorem chainInit_onRing (s : EthTx) (txBuff : Nat) :
    OnRing txBuff (ethDmaTxDescChainInit s txBuff ethTxBufNb) ∧
      ∀ i < ethTxBufNb, ¬ (ethDmaTxDescChainInit s txBuff ethTxBufNb).Owned i := by
  have hdesc : ∀ i < ethTxBufNb, (ethDmaTxDescChainInit s txBuff ethTxBufNb).desc i =
      ⟨txDescTch, (s.desc i).controlBufferSize, txBuff + i * ethMaxPacketSize,
        (i + 1) % ethTxBufNb⟩ := by
    intro i hi
    change i < 2 at hi
    have hcases : i = 0 ∨ i = 1 := by omega
    rcases hcases with rfl | rfl
    · rfl
    · rfl
  refine ⟨⟨Nat.zero_lt_two, fun i hi => ?_, fun i hi => ?_⟩, fun i hi => ?_⟩
  · rw [hdesc i hi]
  · rw [hdesc i hi]
  · unfold EthTx.Owned
    rw [hdesc i hi]
    exact not_not.mpr (show txDescTch &&& txDescOwn = 0 by decide)

/-- The buffers of two descriptors have no byte in common. -/
theorem OnRing.apart (hring : OnRing txBuff s) (hi : i < ethTxBufNb) (hj : j < ethTxBufNb)
    (hij : i ≠ j) : (s.desc i).buffer1Addr + ethMaxPacketSize ≤ (s.desc j).buffer1Addr ∨
      (s.desc j).buffer1Addr + ethMaxPacketSize ≤ (s.desc i).buffer1Addr := by
  rw [hring.buffer i hi, hring.buffer j hj]
  unfold ethTxBufNb ethMaxPacketSize at *
  omega

theorem handOver_owned (s : EthTx) (len : BitVec 32) : (s.handOver len).Owned s.toSet := by
  unfold EthTx.Owned
  rw [handOver_desc, Function.update_self]
  exact own_set _

/-- Exactly the calls that get the length by chance do what they are to do. -/
theorem OnRing.respects_iff (hring : OnRing txBuff s) (hcall : ethTxPkg txBuff s call = some r) :
    RespectsDma txBuff s call r ↔ LengthByChance s call := by
  unfold LengthByChance
  rcases (ethTxPkg_cases hcall).2 with ⟨howned, hr⟩ | ⟨hfree, hr⟩
  · rw [if_pos howned]
    constructor
    · intro h
      by_contra hne
      exact h.owned s.toSet hring.toSet howned _ le_rfl (Nat.lt_add_of_pos_right (by decide))
        (writes_first hcall hne)
    · intro hempty
      refine ⟨fun i _ _ x _ _ hwrites => ?_, fun _ => ?_, fun hok => ?_⟩
      · have hinside := hwrites.inside
        rw [hempty, List.length_nil] at hinside
        omega
      · rw [hr, hempty]
        exact ⟨write_nil _ _, rfl⟩
      · rw [hr] at hok
        cases hok
  · rw [if_neg hfree]
    have hsize : ((r.1.desc s.toSet).controlBufferSize = call.len &&& txDescTbs1) := by
      rw [hr]
      dsimp only
      rw [handOver_desc, Function.update_self]
    constructor
    · intro h
      obtain ⟨-, -, hfits, -, hlength⟩ := h.sent (by rw [hr])
      exact ⟨hfits, hsize ▸ hlength⟩
    · rintro ⟨hfits, hlength⟩
      refine ⟨fun i hi howned x hlow hhigh hwrites => ?_, fun hif => ?_, fun _ => ?_⟩
      · have hne : i ≠ s.toSet := fun h => hfree (h ▸ howned)
        have hinside := hwrites.inside
        rcases hring.apart hi hring.toSet hne with hbelow | habove
        · omega
        · omega
      · rw [hr] at hif
        cases hif
      · refine ⟨hfree, ?_, hfits, ?_, by rw [hsize, hlength]⟩
        · rw [hr]
          exact handOver_owned _ _
        · rw [ethTxPkg_mem hcall, hr]
          dsimp only
          rw [(handOver_links _ _ _).1]
          exact read_write _ _ _

/-! Runs. -/

variable {h h' : EthHistory}

/-- A call that returns, or the DMA is done with a descriptor. -/
theorem ethStep_cases {act : EthAct} (hstep : ethStep txBuff h act = some h') :
    (∃ call r, act = .tx call ∧ ethTxPkg txBuff h.eth call = some r ∧ h' = ⟨r.1,
      if r.2 = errOk then Function.update h.handed h.eth.toSet call.packet.bytes
      else h.handed⟩) ∨
    (∃ i < ethTxBufNb, act = .complete i ∧ h' = { h with eth := h.eth.complete i }) := by
  cases act with
  | tx call =>
    obtain ⟨r, hcall, hsome⟩ := Option.bind_eq_some_iff.mp hstep
    exact .inl ⟨call, r, rfl, hcall, (Option.some.inj hsome).symm⟩
  | complete i =>
    unfold ethStep at hstep
    dsimp only at hstep
    split at hstep
    next hi => exact .inr ⟨i, hi, rfl, (Option.some.inj hstep).symm⟩
    next => cases hstep

theorem ethStep_onRing {act : EthAct} (hring : OnRing txBuff h.eth)
    (hstep : ethStep txBuff h act = some h') : OnRing txBuff h'.eth := by
  obtain ⟨call, r, rfl, hcall, rfl⟩ | ⟨i, -, rfl, rfl⟩ := ethStep_cases hstep
  · exact hring.tx hcall
  · exact hring.complete i

theorem complete_owned (howned : (s.complete i).Owned j) :
    j ≠ i ∧ s.Owned j ∧ (s.complete i).desc j = s.desc j := by
  unfold EthTx.Owned EthTx.complete at howned
  dsimp only at howned
  have hji : j ≠ i := by
    rintro rfl
    rw [Function.update_self] at howned
    exact howned (own_cleared _)
  rw [Function.update_of_ne hji] at howned
  exact ⟨hji, howned, Function.update_of_ne hji _ _⟩

/-- The packet that goes out now leaves the buffers of the others alone. -/
theorem OnRing.read_other (hring : OnRing txBuff s) {bytes : List Byte} {n : Nat}
    (hi : i < ethTxBufNb) (hne : i ≠ s.toSet) (hfits : bytes.length ≤ ethMaxPacketSize)
    (hn : n ≤ ethMaxPacketSize) :
    read (write s.mem (s.desc s.toSet).buffer1Addr bytes) (s.desc i).buffer1Addr n =
      read s.mem (s.desc i).buffer1Addr n := by
  apply read_write_apart
  rcases hring.apart hi hring.toSet hne with hbelow | habove
  · omega
  · omega

theorem ethStep_intact {act : EthAct} (hring : OnRing txBuff h.eth) (hintact : h.Intact)
    (hok : callsByChance h act) (hstep : ethStep txBuff h act = some h') : h'.Intact := by
  obtain ⟨call, r, rfl, hcall, rfl⟩ | ⟨i, -, rfl, rfl⟩ := ethStep_cases hstep
  · have hchance : LengthByChance h.eth call := hok
    unfold LengthByChance at hchance
    rcases (ethTxPkg_cases hcall).2 with ⟨howned, rfl⟩ | ⟨hfree, rfl⟩
    · rw [if_pos howned] at hchance
      rw [hchance, write_nil]
      exact hintact
    · rw [if_neg hfree] at hchance
      obtain ⟨hfits, hlength⟩ := hchance
      intro i hi howned
      unfold EthTx.Owned at howned
      dsimp only at howned ⊢
      rw [if_pos rfl]
      by_cases hti : i = h.eth.toSet
      · subst hti
        rw [Function.update_self, handOver_mem, handOver_desc, Function.update_self]
        exact ⟨hfits, read_write _ _ _, hlength⟩
      · rw [handOver_desc, Function.update_of_ne hti] at howned
        obtain ⟨hsize, hread, hcontrol⟩ := hintact i hi howned
        rw [Function.update_of_ne hti, handOver_mem, handOver_desc, Function.update_of_ne hti]
        refine ⟨hsize, ?_, hcontrol⟩
        dsimp only
        rw [hring.read_other hi hti hfits hsize, hread]
  · intro j hj howned
    obtain ⟨-, howned', hdesc⟩ := complete_owned howned
    dsimp only
    rw [hdesc]
    exact hintact j hj howned'

theorem reaches_onRing {start : EthTx} {handed : Nat → List Byte}
    (hrun : Reaches (ethStep txBuff) anyStep
      ⟨ethDmaTxDescChainInit start txBuff ethTxBufNb, handed⟩ h) : OnRing txBuff h.eth :=
  hrun.invariant (fun h => OnRing txBuff h.eth) (chainInit_onRing start txBuff).1
    fun _ _ _ hring _ hstep => ethStep_onRing hring hstep

theorem reaches_intact {start : EthTx} {handed : Nat → List Byte}
    (hrun : Reaches (ethStep txBuff) callsByChance
      ⟨ethDmaTxDescChainInit start txBuff ethTxBufNb, handed⟩ h) : h.Intact := by
  have hboth : OnRing txBuff h.eth ∧ h.Intact := by
    refine hrun.invariant (fun h => OnRing txBuff h.eth ∧ h.Intact) ?_ ?_
    · exact ⟨(chainInit_onRing start txBuff).1,
        fun i hi howned => absurd howned ((chainInit_onRing start txBuff).2 i hi)⟩
    · rintro h act h' ⟨hring, hintact⟩ hok hstep
      exact ⟨ethStep_onRing hring hstep, ethStep_intact hring hintact hok hstep⟩
  exact hboth.2

/-- A packet that fits stays in its buffer. -/
theorem OnRing.defined (hring : OnRing txBuff s)
    (hfits : call.packet.bytes.length ≤ ethMaxPacketSize) :
    ∃ r, ethTxPkg txBuff s call = some r := by
  have hend : ¬ txBuffEnd txBuff < (s.desc s.toSet).buffer1Addr + call.packet.bytes.length := by
    have htoSet := hring.toSet
    rw [hring.buffer s.toSet htoSet]
    unfold txBuffEnd ethTxBufNb ethMaxPacketSize at *
    omega
  rw [ethTxPkg_eq, if_neg hend]
  by_cases howned : s.Owned s.toSet
  · exact ⟨_, if_pos howned⟩
  · exact ⟨_, if_neg howned⟩

theorem LengthByChance.fits (h : LengthByChance s call) :
    call.packet.bytes.length ≤ ethMaxPacketSize := by
  unfold LengthByChance at h
  by_cases howned : s.Owned s.toSet
  · rw [if_pos howned] at h
    rw [h]
    exact Nat.zero_le _
  · rw [if_neg howned] at h
    exact h.1

/-- In every run of calls and completions, a call respects the DMA exactly if it gets its
length by chance; while all calls do, the DMA reads the packets that were handed over. -/
theorem tx_ring_respected_iff (start : EthTx) (txBuff : Nat) (handed : Nat → List Byte) :
    (∀ h, Reaches (ethStep txBuff) anyStep
        ⟨ethDmaTxDescChainInit start txBuff ethTxBufNb, handed⟩ h →
      ∀ call, (∃ r, ethTxPkg txBuff h.eth call = some r ∧ RespectsDma txBuff h.eth call r) ↔
        LengthByChance h.eth call) ∧
    ∀ h, Reaches (ethStep txBuff) callsByChance
      ⟨ethDmaTxDescChainInit start txBuff ethTxBufNb, handed⟩ h → h.Intact := by
  refine ⟨fun h hrun call => ⟨?_, fun hchance => ?_⟩, fun _ => reaches_intact⟩
  · rintro ⟨r, hcall, hrespects⟩
    exact ((reaches_onRing hrun).respects_iff hcall).mp hrespects
  · obtain ⟨r, hcall⟩ := (reaches_onRing hrun).defined hchance.fits
    exact ⟨r, hcall, ((reaches_onRing hrun).respects_iff hcall).mpr hchance⟩

/-- A packet of one byte in one pbuf, and what is in `len` at the call. -/
def oneByteCall (c : Byte) (len : BitVec 32) : TxCall where
  packet :=
    { pbufs := placeChain (fun _ => none) [(0x1000, [c])]
      chain := [(0x1000, [c])]
      chained := placeChain_chained (List.nodup_singleton _)
      addressed := by
        intro a ha
        obtain rfl : a = 0x1000 := List.mem_singleton.mp ha
        decide
      distinct := List.nodup_singleton _
      short := by
        change 1 < 2 ^ 16
        decide }
  lenAddr := 0x20000800
  len := len
  inRam := by decide

/-- The driver before its first packet; the buffers are at `0x20000100`. -/
def freshEth : EthHistory :=
  ⟨ethDmaTxDescChainInit ⟨fun _ => ⟨0, 0, 0, 0⟩, 0, fun _ => 0, 0, 0⟩ 0x20000100 ethTxBufNb,
    fun _ => []⟩

theorem lucky_call_respects : ∃ r,
    ethTxPkg 0x20000100 freshEth.eth (oneByteCall 7 0x20002001) = some r ∧
    RespectsDma 0x20000100 freshEth.eth (oneByteCall 7 0x20002001) r := by
  have hrespects := (tx_ring_respected_iff ⟨fun _ => ⟨0, 0, 0, 0⟩, 0, fun _ => 0, 0, 0⟩ 0x20000100
    fun _ => []).1 freshEth .refl (oneByteCall 7 0x20002001)
  refine hrespects.mpr ?_
  unfold LengthByChance
  rw [if_neg (by decide)]
  decide

/-- Three packets before the DMA has sent the first one: the third call is refused, but the
first packet has become the third one. -/
theorem third_packet_overwrites : ∃ h, Reaches (ethStep 0x20000100) anyStep freshEth h ∧
    h.eth.Owned h.eth.toSet ∧ h.eth.mem 0x20000100 = 1 ∧
    ∃ r, ethTxPkg 0x20000100 h.eth (oneByteCall 3 1) = some r ∧ r.2 = errIf ∧
      r.1.mem 0x20000100 = 3 ∧ ¬ RespectsDma 0x20000100 h.eth (oneByteCall 3 1) r := by
  have hfacts : (runInputs (ethStep 0x20000100) anyStep
      [.tx (oneByteCall 1 1), .tx (oneByteCall 2 1)] freshEth).map (fun h =>
        (h.eth.toSet, (h.eth.desc 0).status, (h.eth.desc 0).buffer1Addr, h.eth.mem 0x20000100)) =
      some (0, 0xb0100000, 0x20000100, 1) := by decide +kernel
  obtain ⟨h, hrun, hh⟩ := Option.map_eq_some_iff.mp hfacts
  simp only [Prod.mk.injEq] at hh
  obtain ⟨htoSet, hstatus, hbuffer, hmem⟩ := hh
  have howned : h.eth.Owned h.eth.toSet := by
    unfold EthTx.Owned
    rw [htoSet, hstatus]
    decide
  rw [← htoSet] at hbuffer
  have hcall : ethTxPkg 0x20000100 h.eth (oneByteCall 3 1) =
      some ({ h.eth with mem := write h.eth.mem 0x20000100 [3] }, errIf) := by
    rw [ethTxPkg_eq, hbuffer, if_neg (by decide), if_pos howned]
    rfl
  have hchanged : write h.eth.mem 0x20000100 [3] 0x20000100 = 3 := by
    simp [write]
  refine ⟨h, .of_runInputs hrun, howned, hmem, _, hcall, rfl, hchanged, fun hrespects => ?_⟩
  have hsame := congrFun (hrespects.refused rfl).1 0x20000100
  dsimp only at hsame
  rw [hchanged, hmem] at hsame
  cases hsame

end PosixRtos.Drivers
