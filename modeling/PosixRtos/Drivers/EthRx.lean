import PosixRtos.Library.RingBuffer
import PosixRtos.Drivers.Eth
import PosixRtos.Net.Packing

/-! `eth_rx_pkg` of `eth.c` over the ring that `ETH_DMARxDescChainInit` builds. The DMA fills
the descriptors that it owns, one after the other, and `eth_rx_pkg` gives them back. -/
namespace PosixRtos.Drivers

open PosixRtos.Library.ByteMemory PosixRtos.Library.Runs PosixRtos.Library.RingBuffer
open PosixRtos.Net

def ethRxBufNb : Nat := 4

def rxFrameLengthShift : Nat := 16

def rxDescOwn : BitVec 32 := 0x80000000

def rxDescFl : BitVec 32 := 0x3fff0000

def rxDescEs : BitVec 32 := 0x00008000

def rxDescFs : BitVec 32 := 0x00000200

def rxDescLs : BitVec 32 := 0x00000100

def rxDescDic : BitVec 32 := 0x80000000

def rxDescRch : BitVec 32 := 0x00004000

def dmasrRbus : BitVec 32 := 0x00000080

/-- A pointer to a descriptor is its place in the table. -/
structure RxDesc where
  status : BitVec 32
  controlBufferSize : BitVec 32
  buffer1Addr : Nat
  buffer2NextDescAddr : Nat

/-- `toGet` is `DMARxDescToGet`; `pollDemands` counts the writes to `DMARPDR`. -/
structure EthRx where
  desc : Nat → RxDesc
  toGet : Nat
  mem : Memory
  dmasr : BitVec 32
  pollDemands : Nat

/-- The body of the loop of `ETH_DMARxDescChainInit`. -/
def initRxDesc (rxBuff count : Nat) (desc : Nat → RxDesc) (i : Nat) : Nat → RxDesc :=
  Function.update desc i
    { status := rxDescOwn
      controlBufferSize := rxDescRch ||| BitVec.ofNat 32 ethMaxPacketSize
      buffer1Addr := rxBuff + i * ethMaxPacketSize
      buffer2NextDescAddr := if i < count - 1 then i + 1 else 0 }

def ethDmaRxDescChainInit (s : EthRx) (rxBuff count : Nat) : EthRx :=
  { s with
    toGet := 0
    desc := (List.range count).foldl (initRxDesc rxBuff count) s.desc }

/-- `ETH_DMARxDescReceiveITConfig` with `ENABLE`. -/
def ethDmaRxDescReceiveItConfig (desc : Nat → RxDesc) (i : Nat) : Nat → RxDesc :=
  Function.update desc i
    { desc i with controlBufferSize := (desc i).controlBufferSize &&& ~~~rxDescDic }

/-- The receive side of `eth_init`. -/
def ethInitRx (s : EthRx) (rxBuff : Nat) : EthRx :=
  let s := ethDmaRxDescChainInit s rxBuff ethRxBufNb
  { s with desc := (List.range ethRxBufNb).foldl ethDmaRxDescReceiveItConfig s.desc }

def EthRx.Owned (s : EthRx) (i : Nat) : Prop := (s.desc i).status &&& rxDescOwn ≠ 0

instance EthRx.decidableOwned (s : EthRx) (i : Nat) : Decidable (s.Owned i) :=
  inferInstanceAs (Decidable (_ ≠ _))

/-- Writing the bit to the register clears it. -/
def EthRx.demandPoll (s : EthRx) : EthRx :=
  if s.dmasr &&& dmasrRbus ≠ 0 then
    { s with dmasr := s.dmasr &&& ~~~dmasrRbus, pollDemands := s.pollDemands + 1 }
  else s

/-- A frame without an error in one descriptor. -/
def Whole (status : BitVec 32) : Prop :=
  status &&& rxDescEs = 0 ∧ status &&& rxDescLs ≠ 0 ∧ status &&& rxDescFs ≠ 0

instance decidableWhole (status : BitVec 32) : Decidable (Whole status) :=
  inferInstanceAs (Decidable (_ ∧ _ ∧ _))

/-- The length without the CRC, as an `os_u16`. -/
def frameLen (status : BitVec 32) : Nat :=
  ((status &&& rxDescFl) >>> rxFrameLengthShift - 4).toNat % 2 ^ 16

/-- The descriptor goes back to the DMA. -/
def EthRx.giveBack (s : EthRx) (rxDscr : Nat) : EthRx :=
  EthRx.demandPoll { s with
    desc := Function.update s.desc rxDscr { s.desc rxDscr with status := rxDescOwn } }

variable (pbufAlloc : Pbufs → Nat → Pbufs × Nat) (rxBuff : Nat)

def rxBuffEnd : Nat := rxBuff + ethRxBufNb * ethMaxPacketSize

/-- `eth_rx_pkg`; `none` is a copy that leaves `eth_phy_rx_buffer`. Of a frame with an error
no byte is copied: `frame_buffer` has no value there. -/
def ethRxPkg (s : EthRx) (pbufs : Pbufs) : Option (EthRx × Pbufs × Nat) :=
  if s.Owned s.toGet then some (s.demandPoll, pbufs, 0)
  else do
    let rxDscr := s.toGet
    let d := s.desc rxDscr
    let (frameBuffer, len) :=
      if Whole d.status then
        (read s.mem d.buffer1Addr (rxBuffEnd rxBuff - d.buffer1Addr), frameLen d.status)
      else ([], 0)
    let s := { s with toGet := d.buffer2NextDescAddr }
    let (pbufs, p) ← ippkgPack pbufAlloc pbufs frameBuffer len
    some (s.giveBack rxDscr, pbufs, p)

/-- What the DMA leaves in a descriptor: a frame with its CRC, or what came of a damaged one.
The MAC is set up to drop the frames that are too short. -/
structure Filling where
  status : BitVec 32
  bytes : List Byte
  released : status &&& rxDescOwn = 0
  fits : bytes.length ≤ ethMaxPacketSize
  length : Whole status →
    4 ≤ bytes.length ∧ ((status &&& rxDescFl) >>> rxFrameLengthShift).toNat = bytes.length

/-- What is to reach the IP stack. -/
def Filling.packet (f : Filling) : List Byte :=
  if Whole f.status then f.bytes.take (f.bytes.length - 4) else []

/-- The DMA has received a frame. -/
def EthRx.fill (s : EthRx) (i : Nat) (f : Filling) : EthRx :=
  { s with
    desc := Function.update s.desc i { s.desc i with status := f.status }
    mem := write s.mem (s.desc i).buffer1Addr f.bytes }

/-- The bytes of a packet that is not NULL, as the IP stack takes them out. -/
def packetOf (pbufs : Pbufs) (p : Nat) : Option (List Byte) :=
  if p = 0 then none
  else (ippkgUnpack pbufs p (fun _ => 0) (2 ^ 16 - 1)).map fun r => read r.1 0 r.2

/-- The driver with the descriptor that the DMA is at, what the DMA has stored, and what
`eth_rx_pkg` returned for the descriptors it has given back. -/
structure RxHistory where
  eth : EthRx
  dmaDesc : Nat
  stored : List Filling
  received : List (Option (List Byte))

/-- The pbufs are those that the IP stack has at the call. -/
inductive RxAct where
  | frame (f : Filling)
  | rx (pbufs : Pbufs)

def rxStep (h : RxHistory) : RxAct → Option RxHistory
  | .frame f =>
      if h.eth.Owned h.dmaDesc then
        some { h with
          eth := h.eth.fill h.dmaDesc f
          dmaDesc := (h.eth.desc h.dmaDesc).buffer2NextDescAddr
          stored := h.stored ++ [f] }
      -- the DMA stops and the frame is lost
      else some { h with eth := { h.eth with dmasr := h.eth.dmasr ||| dmasrRbus } }
  | .rx pbufs => do
      let (eth, pbufs, p) ← ethRxPkg pbufAlloc rxBuff h.eth pbufs
      some { h with
        eth := eth
        received := if h.eth.Owned h.eth.toGet then h.received
          else h.received ++ [packetOf pbufs p] }

/-- The frames that `eth_rx_pkg` has not taken yet. -/
def RxHistory.waiting (h : RxHistory) : List Filling := h.stored.drop h.received.length

/-- What is returned for a frame; NULL where there is no memory for it. -/
def Delivers (got : Option (List Byte)) (f : Filling) : Prop := got = none ∨ got = some f.packet

variable {pbufAlloc rxBuff} {s s' : EthRx} {f : Filling} {pbufs : Pbufs} {i j : Nat}

/-! One call. -/

@[simp] theorem EthRx.demandPoll_desc (s : EthRx) : s.demandPoll.desc = s.desc := by
  unfold EthRx.demandPoll
  split <;> rfl

@[simp] theorem EthRx.demandPoll_toGet (s : EthRx) : s.demandPoll.toGet = s.toGet := by
  unfold EthRx.demandPoll
  split <;> rfl

@[simp] theorem EthRx.demandPoll_mem (s : EthRx) : s.demandPoll.mem = s.mem := by
  unfold EthRx.demandPoll
  split <;> rfl

theorem EthRx.demandPoll_rbus (s : EthRx) : s.demandPoll.dmasr &&& dmasrRbus = 0 := by
  unfold EthRx.demandPoll
  split
  next =>
    ext k hk
    simp
  next hclear => exact not_not.mp hclear

/-- The links of the ring and the places of its buffers. -/
structure OnRxRing (rxBuff : Nat) (s : EthRx) : Prop where
  toGet : s.toGet < ethRxBufNb
  buffer : ∀ i < ethRxBufNb, (s.desc i).buffer1Addr = rxBuff + i * ethMaxPacketSize
  next : ∀ i < ethRxBufNb, (s.desc i).buffer2NextDescAddr = (i + 1) % ethRxBufNb

/-- The descriptor belongs to the DMA, or the frame is in it. -/
def Filled (s : EthRx) (i : Nat) : Option Filling → Prop
  | none => s.Owned i
  | some f => (s.desc i).status = f.status ∧
      read s.mem (s.desc i).buffer1Addr f.bytes.length = f.bytes

theorem Filled.owned_iff {cell : Option Filling} (h : Filled s i cell) :
    s.Owned i ↔ cell = none := by
  cases cell with
  | none => exact iff_of_true h rfl
  | some f =>
    refine iff_of_false (not_not.mpr ?_) (Option.some_ne_none f)
    rw [h.1]
    exact f.released

theorem frameLen_eq (f : Filling) (hwhole : Whole f.status) :
    frameLen f.status = f.bytes.length - 4 := by
  obtain ⟨hfour, hlength⟩ := f.length hwhole
  have hfits : f.bytes.length ≤ 1520 := f.fits
  have hle : (4 : BitVec 32) ≤ (f.status &&& rxDescFl) >>> rxFrameLengthShift := by
    rw [BitVec.le_def, hlength]
    exact hfour
  unfold frameLen
  rw [BitVec.toNat_sub_of_le hle, hlength]
  exact Nat.mod_eq_of_lt (by change f.bytes.length - 4 < 2 ^ 16; omega)

/-- What is handed to `ippkg_pack` holds the packet. -/
theorem Filled.source (hring : OnRxRing rxBuff s) (h : Filled s s.toGet (some f)) :
    ∃ frameBuffer, (if Whole (s.desc s.toGet).status then
        (read s.mem (s.desc s.toGet).buffer1Addr
          (rxBuffEnd rxBuff - (s.desc s.toGet).buffer1Addr), frameLen (s.desc s.toGet).status)
      else ([], 0)) = (frameBuffer, f.packet.length) ∧ f.packet.length ≤ frameBuffer.length ∧
      f.packet.length < 2 ^ 16 ∧ frameBuffer.take f.packet.length = f.packet := by
  obtain ⟨hstatus, hread⟩ := h
  have hfits : f.bytes.length ≤ 1520 := f.fits
  rw [hstatus]
  by_cases hwhole : Whole f.status
  · have hpacket : f.packet = f.bytes.take (f.bytes.length - 4) := if_pos hwhole
    have hlength : f.packet.length = f.bytes.length - 4 := by
      rw [hpacket, List.length_take]
      omega
    have hroom : f.bytes.length ≤ rxBuffEnd rxBuff - (s.desc s.toGet).buffer1Addr := by
      have htoGet := hring.toGet
      rw [hring.buffer s.toGet htoGet]
      unfold rxBuffEnd ethRxBufNb ethMaxPacketSize at *
      omega
    refine ⟨_, by rw [if_pos hwhole, frameLen_eq f hwhole, hlength], ?_, by omega, ?_⟩
    · rw [length_read]
      omega
    · rw [hlength, take_read, hpacket]
      conv_rhs => rw [← hread]
      rw [length_read, take_read]
      congr 1
      omega
  · have hpacket : f.packet = [] := if_neg hwhole
    rw [if_neg hwhole, hpacket]
    exact ⟨[], rfl, le_rfl, by decide, rfl⟩

/-- The next descriptor is to be looked at, and this one goes back to the DMA. -/
def EthRx.taken (s : EthRx) : EthRx :=
  { s with toGet := (s.desc s.toGet).buffer2NextDescAddr }.giveBack s.toGet

theorem ethRxPkg_takes (halloc : Allocates pbufAlloc) (hring : OnRxRing rxBuff s)
    (h : Filled s s.toGet (some f)) (pbufs : Pbufs) :
    ∃ pbufs' p, ethRxPkg pbufAlloc rxBuff s pbufs = some (s.taken, pbufs', p) ∧
      (p = 0 ∧ pbufAlloc pbufs f.packet.length = (pbufs, 0) ∨
        packetOf pbufs' p = some f.packet) := by
  obtain ⟨frameBuffer, hsource, hsrc, hshort, htake⟩ := h.source hring
  have hfree : ¬ s.Owned s.toGet := fun howned => by cases h.owned_iff.mp howned
  unfold ethRxPkg
  rw [if_neg hfree]
  dsimp only
  rw [hsource]
  dsimp only
  rcases ippkgPack_chain halloc pbufs hsrc hshort with
    ⟨hnull, hpack⟩ | ⟨chain, pbufs', hpack, hne, hbytes, hnew⟩
  · rw [hpack]
    exact ⟨pbufs, 0, rfl, .inl ⟨rfl, hnull⟩⟩
  · rw [hpack]
    refine ⟨pbufs', chain.address, rfl, .inr ?_⟩
    rw [htake] at hbytes
    have hlength : chain.bytes.length ≤ 2 ^ 16 - 1 := by
      rw [hbytes]
      omega
    unfold packetOf
    rw [if_neg (Chain.address_ne_zero hnew.addressed hne),
      ippkgUnpack_chain hnew.chained hnew.addressed hnew.distinct (by omega),
      List.take_of_length_le hlength, Nat.min_eq_right hlength, hbytes, Option.map_some, read_write]

theorem ethRxPkg_owned (howned : s.Owned s.toGet) :
    ethRxPkg pbufAlloc rxBuff s pbufs = some (s.demandPoll, pbufs, 0) := if_pos howned

/-! The ring. -/

@[simp] theorem EthRx.taken_desc (s : EthRx) : s.taken.desc =
    Function.update s.desc s.toGet { s.desc s.toGet with status := rxDescOwn } :=
  EthRx.demandPoll_desc _

@[simp] theorem EthRx.taken_toGet (s : EthRx) :
    s.taken.toGet = (s.desc s.toGet).buffer2NextDescAddr := EthRx.demandPoll_toGet _

@[simp] theorem EthRx.taken_mem (s : EthRx) : s.taken.mem = s.mem := EthRx.demandPoll_mem _

theorem OnRxRing.apart (hring : OnRxRing rxBuff s) (hi : i < ethRxBufNb) (hj : j < ethRxBufNb)
    (hij : i ≠ j) : (s.desc i).buffer1Addr + ethMaxPacketSize ≤ (s.desc j).buffer1Addr ∨
      (s.desc j).buffer1Addr + ethMaxPacketSize ≤ (s.desc i).buffer1Addr := by
  rw [hring.buffer i hi, hring.buffer j hj]
  unfold ethRxBufNb ethMaxPacketSize at *
  omega

/-- A descriptor keeps its place in the ring when its status changes. -/
theorem OnRxRing.status (hring : OnRxRing rxBuff s) (i : Nat) (status : BitVec 32)
    (hdesc : s'.desc = Function.update s.desc i { s.desc i with status := status })
    (htoGet : s'.toGet < ethRxBufNb) : OnRxRing rxBuff s' := by
  have hlinks : ∀ j, (s'.desc j).buffer1Addr = (s.desc j).buffer1Addr ∧
      (s'.desc j).buffer2NextDescAddr = (s.desc j).buffer2NextDescAddr := by
    intro j
    rw [hdesc]
    by_cases hji : j = i
    · subst hji
      rw [Function.update_self]
      exact ⟨rfl, rfl⟩
    · rw [Function.update_of_ne hji]
      exact ⟨rfl, rfl⟩
  constructor
  · exact htoGet
  · intro j hj
    rw [(hlinks j).1, hring.buffer j hj]
  · intro j hj
    rw [(hlinks j).2, hring.next j hj]

theorem OnRxRing.taken (hring : OnRxRing rxBuff s) : OnRxRing rxBuff s.taken := by
  apply hring.status s.toGet rxDescOwn s.taken_desc
  rw [EthRx.taken_toGet, hring.next s.toGet hring.toGet]
  exact Nat.mod_lt _ (by decide)

/-- Only the descriptor and its buffer matter. -/
theorem Filled.congr {cell : Option Filling} (h : Filled s i cell)
    (hdesc : s'.desc i = s.desc i) (hread : ∀ n ≤ ethMaxPacketSize,
      read s'.mem (s.desc i).buffer1Addr n = read s.mem (s.desc i).buffer1Addr n) :
    Filled s' i cell := by
  cases cell with
  | none =>
    unfold Filled EthRx.Owned
    rw [hdesc]
    exact h
  | some f =>
    unfold Filled
    dsimp only
    rw [hdesc, hread _ f.fits]
    exact h

theorem rxDescOwn_own : rxDescOwn &&& rxDescOwn ≠ 0 := by decide

theorem filled_taken (s : EthRx) : Filled s.taken s.toGet none := by
  change (s.taken.desc s.toGet).status &&& rxDescOwn ≠ 0
  rw [EthRx.taken_desc, Function.update_self]
  exact rxDescOwn_own

theorem filled_fill (s : EthRx) (i : Nat) (f : Filling) : Filled (s.fill i f) i (some f) := by
  unfold Filled EthRx.fill
  dsimp only
  rw [Function.update_self]
  exact ⟨rfl, read_write _ _ _⟩

/-- The DMA leaves the frames in the other descriptors alone. -/
theorem Filled.fill_other {cell : Option Filling} (h : Filled s j cell)
    (hring : OnRxRing rxBuff s) (hi : i < ethRxBufNb) (hj : j < ethRxBufNb) (hji : j ≠ i)
    (f : Filling) : Filled (s.fill i f) j cell := by
  apply h.congr (Function.update_of_ne hji _ _)
  intro n hn
  apply read_write_apart
  have hf := f.fits
  rcases hring.apart hi hj hji.symm with hbelow | habove
  · omega
  · omega

/-! Runs. -/

/-- The descriptors from `toGet` on hold the frames that wait, in their order; the DMA owns
the others and goes on behind them. -/
structure RxInv (rxBuff : Nat) (h : RxHistory) : Prop where
  ring : OnRxRing rxBuff h.eth
  dma : h.dmaDesc = (h.eth.toGet + h.waiting.length) % ethRxBufNb
  cells : ∃ cell, Holds ethRxBufNb h.eth.toGet cell h.waiting ∧
    ∀ i < ethRxBufNb, Filled h.eth i (cell i)
  le : h.received.length ≤ h.stored.length
  delivered : ∀ (k : Nat) (got : Option (List Byte)), h.received[k]? = some got →
    ∃ f, h.stored[k]? = some f ∧ Delivers got f

variable {h h' : RxHistory}

theorem RxInv.dmaDesc_lt (inv : RxInv rxBuff h) : h.dmaDesc < ethRxBufNb := by
  rw [inv.dma]
  exact Nat.mod_lt _ (by decide)

/-- There is no room for a frame only while four of them wait. -/
theorem RxInv.room (inv : RxInv rxBuff h) :
    h.eth.Owned h.dmaDesc ↔ h.waiting.length < ethRxBufNb := by
  obtain ⟨cell, hholds, hfilled⟩ := inv.cells
  rw [(hfilled h.dmaDesc inv.dmaDesc_lt).owned_iff, inv.dma]
  constructor
  · intro hnone
    by_contra hfull
    have hlength : h.waiting.length = ethRxBufNb := le_antisymm hholds.fits (Nat.not_lt.mp hfull)
    rw [hlength, Nat.add_mod_right, Nat.mod_eq_of_lt inv.ring.toGet, hholds.first,
      List.head?_eq_none_iff] at hnone
    rw [hnone] at hlength
    cases hlength
  · exact hholds.behind

theorem RxInv.filled (inv : RxInv rxBuff h) : Filled h.eth h.eth.toGet h.waiting.head? := by
  obtain ⟨cell, hholds, hfilled⟩ := inv.cells
  rw [← hholds.first]
  exact hfilled h.eth.toGet inv.ring.toGet

theorem RxInv.owned_iff (inv : RxInv rxBuff h) : h.eth.Owned h.eth.toGet ↔ h.waiting = [] := by
  rw [inv.filled.owned_iff, List.head?_eq_none_iff]

/-- Only the status register changes. -/
theorem RxInv.register (inv : RxInv rxBuff h) {eth : EthRx} (hdesc : eth.desc = h.eth.desc)
    (htoGet : eth.toGet = h.eth.toGet) (hmem : eth.mem = h.eth.mem) :
    RxInv rxBuff { h with eth := eth } := by
  obtain ⟨cell, hholds, hfilled⟩ := inv.cells
  refine ⟨⟨?_, ?_, ?_⟩, ?_, ⟨cell, ?_, ?_⟩, inv.le, inv.delivered⟩
  · rw [htoGet]
    exact inv.ring.toGet
  · rw [hdesc]
    exact inv.ring.buffer
  · rw [hdesc]
    exact inv.ring.next
  · dsimp only
    rw [htoGet]
    exact inv.dma
  · dsimp only
    rw [htoGet]
    exact hholds
  · intro i hi
    exact (hfilled i hi).congr (congrFun hdesc i) fun _ _ => by rw [hmem]

theorem RxInv.frame (inv : RxInv rxBuff h) (howned : h.eth.Owned h.dmaDesc) (f : Filling) :
    RxInv rxBuff { h with
      eth := h.eth.fill h.dmaDesc f
      dmaDesc := (h.eth.desc h.dmaDesc).buffer2NextDescAddr
      stored := h.stored ++ [f] } := by
  obtain ⟨cell, hholds, hfilled⟩ := inv.cells
  have hroom := inv.room.mp howned
  have hlt := inv.dmaDesc_lt
  have hle := inv.le
  have hwaiting : (h.stored ++ [f]).drop h.received.length = h.waiting ++ [f] :=
    List.drop_append_of_le_length hle
  constructor
  · exact inv.ring.status h.dmaDesc f.status rfl inv.ring.toGet
  · have hdma := inv.dma
    unfold RxHistory.waiting at hdma ⊢
    dsimp only
    rw [hwaiting, inv.ring.next _ hlt, List.length_append, List.length_singleton]
    unfold RxHistory.waiting EthRx.fill
    dsimp only
    unfold ethRxBufNb at *
    omega
  · refine ⟨Function.update cell h.dmaDesc (some f), ?_, fun i hi => ?_⟩
    · unfold RxHistory.waiting
      dsimp only
      rw [hwaiting, inv.dma]
      exact hholds.push hroom
    · by_cases hi' : i = h.dmaDesc
      · subst hi'
        rw [Function.update_self]
        exact filled_fill _ _ f
      · rw [Function.update_of_ne hi']
        exact (hfilled i hi).fill_other inv.ring hlt hi hi' f
  · dsimp only
    rw [List.length_append]
    omega
  · intro k got hgot
    obtain ⟨g, hg, hdelivers⟩ := inv.delivered k got hgot
    refine ⟨g, ?_, hdelivers⟩
    rw [List.getElem?_append_left (List.getElem?_eq_some_iff.mp hg).1]
    exact hg

theorem RxInv.take (inv : RxInv rxBuff h) {rest : List Filling} (hwaiting : h.waiting = f :: rest)
    {got : Option (List Byte)} (hgot : Delivers got f) :
    RxInv rxBuff { h with eth := h.eth.taken, received := h.received ++ [got] } := by
  obtain ⟨cell, hholds, hfilled⟩ := inv.cells
  have hfirst : h.stored[h.received.length]? = some f := by
    rw [← List.head?_drop]
    exact congrArg List.head? hwaiting
  have hrest : h.stored.drop (h.received.length + 1) = rest := by
    rw [← List.tail_drop]
    exact congrArg List.tail hwaiting
  have hlt := (List.getElem?_eq_some_iff.mp hfirst).1
  have htoGet : h.eth.taken.toGet = (h.eth.toGet + 1) % ethRxBufNb := by
    rw [EthRx.taken_toGet, inv.ring.next _ inv.ring.toGet]
  rw [hwaiting] at hholds
  have hnew : RxHistory.waiting { h with eth := h.eth.taken, received := h.received ++ [got] } =
      rest := by
    unfold RxHistory.waiting
    dsimp only
    rw [List.length_append]
    exact hrest
  constructor
  · exact inv.ring.taken
  · rw [hnew]
    dsimp only
    rw [inv.dma, hwaiting, htoGet, List.length_cons]
    unfold ethRxBufNb
    omega
  · refine ⟨Function.update cell h.eth.toGet none, ?_, fun i hi => ?_⟩
    · rw [hnew]
      dsimp only
      rw [htoGet]
      exact hholds.pop
    · by_cases hi' : i = h.eth.toGet
      · subst hi'
        rw [Function.update_self]
        exact filled_taken h.eth
      · rw [Function.update_of_ne hi']
        apply (hfilled i hi).congr
        · rw [EthRx.taken_desc, Function.update_of_ne hi']
        · intro n _
          rw [EthRx.taken_mem]
  · dsimp only
    rw [List.length_append]
    exact hlt
  · intro k got' hgot'
    dsimp only at hgot'
    by_cases hk : k < h.received.length
    · rw [List.getElem?_append_left hk] at hgot'
      exact inv.delivered k got' hgot'
    · have hbound := (List.getElem?_eq_some_iff.mp hgot').1
      rw [List.length_append, List.length_singleton] at hbound
      obtain rfl : k = h.received.length := by omega
      rw [List.getElem?_concat_length] at hgot'
      obtain rfl := Option.some.inj hgot'
      exact ⟨f, hfirst, hgot⟩

theorem packetOf_null (pbufs : Pbufs) : packetOf pbufs 0 = none := if_pos rfl

theorem RxInv.step (halloc : Allocates pbufAlloc) {act : RxAct} (inv : RxInv rxBuff h)
    (hstep : rxStep pbufAlloc rxBuff h act = some h') : RxInv rxBuff h' := by
  cases act with
  | frame f =>
    unfold rxStep at hstep
    dsimp only at hstep
    split at hstep
    next howned =>
      obtain rfl := Option.some.inj hstep
      exact inv.frame howned f
    next =>
      obtain rfl := Option.some.inj hstep
      exact inv.register rfl rfl rfl
  | rx pbufs =>
    obtain ⟨⟨eth, pbufs', p⟩, hcall, hsome⟩ := Option.bind_eq_some_iff.mp hstep
    obtain rfl := Option.some.inj hsome
    rcases hwaiting : h.waiting with _ | ⟨f, rest⟩
    · have howned := inv.owned_iff.mpr hwaiting
      rw [ethRxPkg_owned howned] at hcall
      cases hcall
      rw [if_pos howned]
      exact inv.register h.eth.demandPoll_desc h.eth.demandPoll_toGet h.eth.demandPoll_mem
    · have hfree : ¬ h.eth.Owned h.eth.toGet := by
        rw [inv.owned_iff, hwaiting]
        exact List.cons_ne_nil f rest
      have hfilled := inv.filled
      rw [hwaiting] at hfilled
      obtain ⟨pbufs₂, p₂, htakes, hresult⟩ := ethRxPkg_takes halloc inv.ring hfilled pbufs
      rw [htakes] at hcall
      cases hcall
      rw [if_neg hfree]
      apply inv.take hwaiting
      rcases hresult with ⟨rfl, -⟩ | hpacket
      · exact .inl (packetOf_null _)
      · exact .inr hpacket

theorem init_rxInv (s : EthRx) (rxBuff : Nat) : RxInv rxBuff ⟨ethInitRx s rxBuff, 0, [], []⟩ := by
  have hdesc : ∀ i < ethRxBufNb, (ethInitRx s rxBuff).desc i =
      ⟨rxDescOwn, (rxDescRch ||| BitVec.ofNat 32 ethMaxPacketSize) &&& ~~~rxDescDic,
        rxBuff + i * ethMaxPacketSize, (i + 1) % ethRxBufNb⟩ := by
    intro i hi
    change i < 4 at hi
    have hcases : i = 0 ∨ i = 1 ∨ i = 2 ∨ i = 3 := by omega
    rcases hcases with rfl | rfl | rfl | rfl <;> rfl
  refine ⟨⟨Nat.zero_lt_succ 3, fun i hi => ?_, fun i hi => ?_⟩, rfl, ⟨fun _ => none, ?_, ?_⟩,
    le_rfl, ?_⟩
  · rw [hdesc i hi]
  · rw [hdesc i hi]
  · exact ⟨Nat.zero_lt_succ 3, Nat.zero_le _, fun _ _ => rfl⟩
  · intro i hi
    unfold Filled EthRx.Owned
    dsimp only
    rw [hdesc i hi]
    exact rxDescOwn_own
  · intro k got hgot
    cases hgot

/-- The receive ring is a queue of four frames. Whatever frames come in and whenever
`eth_rx_pkg` is called, it returns the frames that the DMA stored, in their order and each of
them once; a frame is dropped only where there is no pbuf for it, or while four frames wait.
A call always returns, and the DMA goes on after it. -/
theorem rx_ring_fifo (halloc : Allocates pbufAlloc) (start : EthRx) (rxBuff : Nat)
    (hrun : Reaches (rxStep pbufAlloc rxBuff) anyStep ⟨ethInitRx start rxBuff, 0, [], []⟩ h) :
    (∀ (k : Nat) (got : Option (List Byte)), h.received[k]? = some got →
      ∃ f, h.stored[k]? = some f ∧ Delivers got f) ∧
    (h.eth.Owned h.dmaDesc ↔ h.stored.length < h.received.length + ethRxBufNb) ∧
    ∀ pbufs, ∃ eth pbufs' p, ethRxPkg pbufAlloc rxBuff h.eth pbufs = some (eth, pbufs', p) ∧
      eth.dmasr &&& dmasrRbus = 0 ∧
      match h.stored[h.received.length]? with
      | none => p = 0 ∧ pbufs' = pbufs ∧ eth.desc = h.eth.desc ∧ eth.toGet = h.eth.toGet
      | some f => p = 0 ∧ pbufAlloc pbufs f.packet.length = (pbufs, 0) ∨
          packetOf pbufs' p = some f.packet := by
  have inv : RxInv rxBuff h :=
    hrun.invariant (RxInv rxBuff) (init_rxInv start rxBuff)
      fun _ _ _ inv _ hstep => inv.step halloc hstep
  refine ⟨inv.delivered, ?_, fun pbufs => ?_⟩
  · rw [inv.room]
    unfold RxHistory.waiting
    rw [List.length_drop]
    have hle := inv.le
    unfold ethRxBufNb
    omega
  · have hfilled := inv.filled
    have hnext : h.stored[h.received.length]? = h.waiting.head? := List.head?_drop.symm
    rw [hnext]
    generalize h.waiting.head? = first at hfilled
    cases first with
    | none =>
      exact ⟨_, _, _, ethRxPkg_owned hfilled, h.eth.demandPoll_rbus, rfl, rfl,
        h.eth.demandPoll_desc, h.eth.demandPoll_toGet⟩
    | some f =>
      obtain ⟨pbufs', p, hcall, hresult⟩ := ethRxPkg_takes halloc inv.ring hfilled pbufs
      exact ⟨_, _, _, hcall, EthRx.demandPoll_rbus _, hresult⟩

/-- Five bytes, four of them the CRC. -/
def shortFrame (c : Byte) : Filling where
  status := 0x00050300
  bytes := [c, 0, 0, 0, 0]
  released := by decide
  fits := by
    change 5 ≤ 1520
    decide
  length := fun _ => ⟨Nat.le_succ 4, rfl⟩

def damagedFrame : Filling where
  status := 0x00058300
  bytes := [9, 9, 9, 9, 9]
  released := by decide
  fits := by decide
  length := fun hwhole => absurd hwhole (by decide)

/-- The driver before its first frame; the buffers are at `0x20001000`. -/
def freshRx : RxHistory :=
  ⟨ethInitRx ⟨fun _ => ⟨0, 0, 0, 0⟩, 0, fun _ => 0, 0, 0⟩ 0x20001000, 0, [], []⟩

/-- Five frames come in before the first call: the fifth one is lost. After two calls the
third frame, a damaged one, is next. -/
def fiveFrames : Option RxHistory :=
  runInputs (rxStep halves 0x20001000) anyStep
    [.frame (shortFrame 1), .frame (shortFrame 2), .frame damagedFrame, .frame (shortFrame 4),
      .frame (shortFrame 5), .rx fun _ => none, .rx fun _ => none] freshRx

theorem rx_ring_fifo_five : ∃ h, fiveFrames = some h ∧ h.received = [some [1], some [2]] ∧
    h.stored.map Filling.packet = [[1], [2], [], [4]] ∧ h.eth.Owned h.dmaDesc ∧
    ∃ eth pbufs' p, ethRxPkg halves 0x20001000 h.eth (fun _ => none) = some (eth, pbufs', p) ∧
      eth.dmasr &&& dmasrRbus = 0 ∧ packetOf pbufs' p = some [] := by
  have hfacts : fiveFrames.map (fun h => (h.received, h.stored.map Filling.packet)) =
      some ([some [1], some [2]], [[1], [2], [], [4]]) := by decide +kernel
  obtain ⟨h, hrun, hh⟩ := Option.map_eq_some_iff.mp hfacts
  simp only [Prod.mk.injEq] at hh
  obtain ⟨hreceived, hstored⟩ := hh
  obtain ⟨-, hroom, hcall⟩ := rx_ring_fifo halves_allocates _ 0x20001000 (.of_runInputs hrun)
  have hlength : h.stored.length = 4 := by
    rw [← List.length_map (f := Filling.packet), hstored]
    rfl
  obtain ⟨eth, pbufs', p, htakes, hrbus, hresult⟩ := hcall fun _ => none
  obtain ⟨f, hf, hpacket⟩ : ∃ f, h.stored[2]? = some f ∧ f.packet = [] := by
    rw [← Option.map_eq_some_iff, ← List.getElem?_map, hstored]
    rfl
  rw [hreceived] at hroom hresult
  simp only [List.length_cons, List.length_nil, Nat.zero_add, Nat.reduceAdd, hf, hpacket] at hresult
  refine ⟨h, hrun, hreceived, hstored, hroom.mpr (by rw [hlength]; decide), eth, pbufs', p, htakes,
    hrbus, ?_⟩
  rcases hresult with ⟨-, hnull⟩ | hgot
  · cases congrArg Prod.snd hnull
  · exact hgot

end PosixRtos.Drivers
