import PosixRtos.Net.Pbuf

/-! `ippkg_pack`. `pbuf_alloc` of lwIP is a parameter: it returns NULL or a chain of pbufs
that nobody else has, cut in any way. -/
namespace PosixRtos.Net

open PosixRtos.Library.ByteMemory

/-- `memcpy` from an array that ends after its last byte. -/
def readSource (src : List Byte) (offset count : Nat) : Option (List Byte) :=
  if offset + count ≤ src.length then some ((src.drop offset).take count) else none

/-- The loop of `ippkg_pack` from the pbuf `q` on; `offset` is an `os_u16`. -/
def ippkgPackFrom (src : List Byte) : Nat → Pbufs → Nat → Nat → Option Pbufs
  | 0, _, _, _ => none
  | fuel + 1, pbufs, q, offset =>
      if q = 0 then some pbufs
      else do
        let pbuf ← pbufs q
        let bytes ← readSource src offset pbuf.payload.length
        ippkgPackFrom src fuel (Function.update pbufs q (some { pbuf with payload := bytes }))
          pbuf.next ((offset + pbuf.payload.length) % 2 ^ 16)

/-- `ippkg_pack`; a NULL chain is returned as it is. -/
def ippkgPack (pbufAlloc : Pbufs → Nat → Pbufs × Nat) (pbufs : Pbufs) (src : List Byte)
    (len : Nat) : Option (Pbufs × Nat) := do
  let (pbufs, p) := pbufAlloc pbufs len
  if p = 0 then some (pbufs, 0)
  else do
    let pbufs ← ippkgPackFrom src chainFuel pbufs p 0
    some (pbufs, p)

/-- The chain is new, and the other pbufs are as they were. -/
structure NewChain (pbufs pbufs' : Pbufs) (chain : Chain) : Prop where
  chained : Chained pbufs' chain
  addressed : chain.Addressed
  distinct : chain.addresses.Nodup
  fresh : ∀ a ∈ chain.addresses, pbufs a = none
  others : ∀ a ∉ chain.addresses, pbufs' a = pbufs a

/-- What lwIP documents of `pbuf_alloc(PBUF_RAW, len, PBUF_POOL)`. -/
def Allocates (pbufAlloc : Pbufs → Nat → Pbufs × Nat) : Prop :=
  ∀ pbufs len, pbufAlloc pbufs len = (pbufs, 0) ∨
    ∃ (chain : Chain) (pbufs' : Pbufs), pbufAlloc pbufs len = (pbufs', chain.address) ∧ chain ≠ [] ∧
      chain.bytes.length = len ∧ NewChain pbufs pbufs' chain

/-- The chain with the bytes of `d` in the places of its own. -/
def Chain.filled : Chain → List Byte → Chain
  | [], _ => []
  | (a, payload) :: rest, d =>
      (a, d.take payload.length) :: Chain.filled rest (d.drop payload.length)

variable {pbufAlloc : Pbufs → Nat → Pbufs × Nat} {pbufs pbufs' : Pbufs} {chain : Chain}
  {src d : List Byte} {fuel offset : Nat}

theorem Chain.filled_addresses (chain : Chain) (d : List Byte) :
    (chain.filled d).addresses = chain.addresses := by
  induction chain generalizing d with
  | nil => rfl
  | cons head rest ih => exact congrArg (head.1 :: ·) (ih (d.drop head.2.length))

theorem Chain.filled_address (chain : Chain) (d : List Byte) :
    (chain.filled d).address = chain.address := by
  cases chain with
  | nil => rfl
  | cons head rest => rfl

theorem Chain.filled_bytes (chain : Chain) (d : List Byte) :
    (chain.filled d).bytes = d.take chain.bytes.length := by
  induction chain generalizing d with
  | nil => rfl
  | cons head rest ih =>
    change d.take head.2.length ++ Chain.bytes (Chain.filled rest (d.drop head.2.length)) = _
    rw [ih, show Chain.bytes (head :: rest) = head.2 ++ Chain.bytes rest from rfl,
      List.length_append, List.take_add]

theorem Chain.address_ne_zero (haddr : chain.Addressed) (hne : chain ≠ []) :
    chain.address ≠ 0 := by
  cases chain with
  | nil => exact absurd rfl hne
  | cons head rest => exact (haddr head.1 List.mem_cons_self).1.ne'

/-- The loop fills the chain with the bytes of the source from `offset` on. -/
theorem ippkgPackFrom_chain (h : Chained pbufs chain) (haddr : chain.Addressed)
    (hdistinct : chain.addresses.Nodup) (hfuel : chain.length ≤ fuel)
    (hsrc : offset + chain.bytes.length ≤ src.length)
    (hshort : offset + chain.bytes.length < 2 ^ 16) :
    ∃ pbufs', ippkgPackFrom src (fuel + 1) pbufs chain.address offset = some pbufs' ∧
      Chained pbufs' (chain.filled (src.drop offset)) ∧
      ∀ a ∉ chain.addresses, pbufs' a = pbufs a := by
  induction chain generalizing fuel pbufs offset with
  | nil =>
    refine ⟨pbufs, ?_, trivial, fun _ _ => rfl⟩
    rw [ippkgPackFrom, if_pos (show Chain.address [] = 0 from rfl)]
  | cons head rest ih =>
    obtain ⟨a, payload⟩ := head
    obtain ⟨hnew, hrest⟩ := List.nodup_cons.mp hdistinct
    obtain ⟨fuel, rfl⟩ := Nat.exists_eq_add_of_le' (Nat.succ_le_of_lt (Nat.zero_lt_of_lt hfuel))
    have hnonzero : a ≠ 0 := (haddr a List.mem_cons_self).1.ne'
    have hbytes : Chain.bytes ((a, payload) :: rest) = payload ++ Chain.bytes rest := rfl
    rw [hbytes, List.length_append] at hsrc hshort
    have hread : readSource src offset payload.length =
        some ((src.drop offset).take payload.length) := if_pos (by omega)
    -- the pbuf is filled before the loop goes on, and not touched again
    have htail : Chained (Function.update pbufs a (some ⟨Chain.address rest,
        (src.drop offset).take payload.length, 1⟩)) rest :=
      h.2.congr fun b hb => Function.update_of_ne (fun (hba : b = a) => hnew (hba ▸ hb)) _ _
    obtain ⟨pbufs', hloop, hfilled, hsame⟩ :=
      @ih _ fuel (offset + payload.length) htail (fun b hb => haddr b (List.mem_cons_of_mem a hb))
        hrest (Nat.le_of_succ_le_succ hfuel) (by omega) (by omega)
    refine ⟨pbufs', ?_, ⟨?_, ?_⟩, ?_⟩
    · rw [show Chain.address ((a, payload) :: rest) = a from rfl, ippkgPackFrom, if_neg hnonzero,
        h.1, Option.bind_eq_bind, Option.bind_some, hread, Option.bind_eq_bind, Option.bind_some,
        Nat.mod_eq_of_lt (by dsimp only; omega)]
      exact hloop
    · rw [hsame a hnew, Function.update_self, Chain.filled_address]
    · rw [List.drop_drop]
      exact hfilled
    · intro b hb
      obtain ⟨hne, hb⟩ := not_or.mp fun h => hb (List.mem_cons.mpr h)
      exact (hsame b hb).trans (Function.update_of_ne hne _ _)

/-- A packet that was packed is a new chain with its bytes. -/
theorem ippkgPack_chain {len : Nat} (halloc : Allocates pbufAlloc) (pbufs : Pbufs)
    (hsrc : len ≤ src.length) (hshort : len < 2 ^ 16) :
    (pbufAlloc pbufs len = (pbufs, 0) ∧ ippkgPack pbufAlloc pbufs src len = some (pbufs, 0)) ∨
      ∃ (chain : Chain) (pbufs' : Pbufs),
        ippkgPack pbufAlloc pbufs src len = some (pbufs', chain.address) ∧ chain ≠ [] ∧
          chain.bytes = src.take len ∧ NewChain pbufs pbufs' chain := by
  rcases halloc pbufs len with hnull | ⟨chain, pbufs₁, hcall, hne, hlength, hnew⟩
  · left
    refine ⟨hnull, ?_⟩
    rw [ippkgPack, hnull]
    rfl
  · right
    obtain ⟨fuel, hfuel, hle⟩ := chain.length_le_fuel hnew.addressed hnew.distinct
    obtain ⟨pbufs', hloop, hfilled, hsame⟩ := @ippkgPackFrom_chain pbufs₁ chain src fuel 0
      hnew.chained hnew.addressed hnew.distinct hle (by omega) (by omega)
    refine ⟨chain.filled src, pbufs', ?_, ?_, ?_, ?_⟩
    · rw [ippkgPack, hcall]
      dsimp only
      rw [if_neg (Chain.address_ne_zero hnew.addressed hne), hfuel, hloop, Chain.filled_address]
      rfl
    · intro hnil
      have hempty := chain.filled_addresses src
      rw [hnil] at hempty
      exact hne (List.map_eq_nil_iff.mp hempty.symm)
    · rw [Chain.filled_bytes, hlength]
    · have haddresses := chain.filled_addresses src
      constructor
      · exact hfilled
      · intro a ha
        exact hnew.addressed a (haddresses ▸ ha)
      · exact haddresses ▸ hnew.distinct
      · intro a ha
        exact hnew.fresh a (haddresses ▸ ha)
      · intro a ha
        rw [haddresses] at ha
        exact (hsame a ha).trans (hnew.others a ha)

/-- Unpacking undoes packing, whatever the cut of the chain. -/
theorem ippkg_unpack_pack (halloc : Allocates pbufAlloc) (pbufs : Pbufs) (d : List Byte)
    (hd : d.length ≤ 65535) :
    ∃ pbufs' p, ippkgPack pbufAlloc pbufs d d.length = some (pbufs', p) ∧
      (p ≠ 0 → ∀ (buf : Memory) (n : Nat), ∃ buf',
        ippkgUnpack pbufs' p buf n = some (buf', min n d.length) ∧
        read buf' 0 (min n d.length) = d.take n ∧ ∀ x, min n d.length ≤ x → buf' x = buf x) := by
  rcases ippkgPack_chain halloc pbufs (le_refl d.length) (Nat.lt_succ_of_le hd) with
    ⟨-, hnull⟩ | ⟨chain, pbufs', hcall, -, hbytes, hnew⟩
  · exact ⟨pbufs, 0, hnull, fun h => absurd rfl h⟩
  · rw [List.take_length] at hbytes
    refine ⟨pbufs', chain.address, hcall, fun _ buf n => ⟨write buf 0 (d.take n), ?_, ?_, ?_⟩⟩
    · rw [ippkgUnpack_chain hnew.chained hnew.addressed hnew.distinct
        (by rw [hbytes]; exact Nat.lt_succ_of_le hd), hbytes]
    · have hread := read_write buf 0 (d.take n)
      rwa [List.length_take] at hread
    · intro x hx
      apply write_outside
      rw [List.length_take]
      omega

/-- Two pbufs, the second one of the rest. -/
def halvesChain (len : Nat) : Chain :=
  [(0x1000, List.replicate (len / 2) 0), (0x2000, List.replicate (len - len / 2) 0)]

def halves (pbufs : Pbufs) (len : Nat) : Pbufs × Nat :=
  if (pbufs 0x1000).isNone ∧ (pbufs 0x2000).isNone then
    (placeChain pbufs (halvesChain len), 0x1000)
  else (pbufs, 0)

theorem halves_allocates : Allocates halves := by
  intro pbufs len
  unfold halves
  by_cases hfree : (pbufs 0x1000).isNone ∧ (pbufs 0x2000).isNone
  · rw [if_pos hfree]
    have hdistinct : (halvesChain len).addresses.Nodup := by
      simp [halvesChain, Chain.addresses]
    have hmem : ∀ a ∈ (halvesChain len).addresses, a = 0x1000 ∨ a = 0x2000 := by
      intro a ha
      simpa [halvesChain, Chain.addresses] using ha
    refine .inr ⟨halvesChain len, _, rfl, List.cons_ne_nil _ _, ?_,
      placeChain_chained hdistinct, ?_, hdistinct, ?_, fun a ha => placeChain_outside ha⟩
    · simp only [halvesChain, Chain.bytes, List.flatMap_cons, List.flatMap_nil, List.length_append,
        List.length_replicate, List.length_nil]
      omega
    · intro a ha
      have hcases := hmem a ha
      omega
    · intro a ha
      rcases hmem a ha with rfl | rfl
      · exact Option.isNone_iff_eq_none.mp hfree.1
      · exact Option.isNone_iff_eq_none.mp hfree.2
  · rw [if_neg hfree]
    exact .inl rfl

/-- Five bytes in a chain of two and three, four of them asked for. -/
theorem four_of_five_return : ∃ pbufs' p,
    ippkgPack halves (fun _ => none) [1, 2, 3, 4, 5] 5 = some (pbufs', p) ∧ p = 0x1000 ∧
      ∃ buf', ippkgUnpack pbufs' p (fun _ => 0xff) 4 = some (buf', 4) ∧
        read buf' 0 4 = [1, 2, 3, 4] ∧ ∀ x, 4 ≤ x → buf' x = 0xff := by
  obtain ⟨pbufs', p, hcall, hunpack⟩ := ippkg_unpack_pack halves_allocates (fun _ => none)
    [1, 2, 3, 4, 5] (by decide)
  have hp : p = 0x1000 := by
    have hfacts : (ippkgPack halves (fun _ => none) [1, 2, 3, 4, 5] 5).map Prod.snd =
        some 0x1000 := rfl
    rw [show ippkgPack halves (fun _ => none) [1, 2, 3, 4, 5] 5 = _ from hcall] at hfacts
    exact Option.some.inj hfacts
  exact ⟨pbufs', p, hcall, hp, hunpack (by rw [hp]; decide) (fun _ => 0xff) 4⟩

end PosixRtos.Net
