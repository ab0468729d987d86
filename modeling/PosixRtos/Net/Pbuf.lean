import PosixRtos.Library.ByteMemory

/-! `ippkg.c` and the part of lwIP's `pbuf.c` that it works with. A packet is a
chain of pbufs; a pbuf is found at its address as long as it is allocated. -/
namespace PosixRtos.Net

open PosixRtos.Library.ByteMemory

/-- `len` is the length of the payload. -/
structure Pbuf where
  next : Nat
  payload : List Byte
  ref : Nat

/-- The allocated pbufs by their addresses. -/
abbrev Pbufs := Nat → Option Pbuf

/-- No chain has more pbufs than there are addresses. -/
def chainFuel : Nat := 2 ^ 32

/-- The loop of `ippkg_unpack` from the pbuf `q` on; `offset` is an `os_u16`.
`none` is an access to an address at which there is no pbuf. -/
def ippkgUnpackFrom (pbufs : Pbufs) : Nat → Nat → Memory → Nat → Nat → Option (Memory × Nat)
  | 0, _, _, _, _ => none
  | fuel + 1, q, src, offset, len =>
      if q = 0 ∨ len = 0 then some (src, offset)
      else do
        let pbuf ← pbufs q
        let bytes := if len < pbuf.payload.length then len else pbuf.payload.length
        ippkgUnpackFrom pbufs fuel pbuf.next (write src offset (pbuf.payload.take bytes))
          ((offset + bytes) % 2 ^ 16) (len - bytes)

/-- `ippkg_unpack`: the buffer, from its first byte on, and the number of bytes. -/
def ippkgUnpack (pbufs : Pbufs) (pbuf : Nat) (src : Memory) (len : Nat) : Option (Memory × Nat) :=
  ippkgUnpackFrom pbufs chainFuel pbuf src 0 len

/-- `--(p->ref)` of a `u16_t`. -/
def decRef (ref : Nat) : Nat := (ref + (2 ^ 16 - 1)) % 2 ^ 16

theorem decRef_one : decRef 1 = 0 := by norm_num [decRef]

/-- The loop of `pbuf_free`. -/
def pbufFreeFrom : Nat → Pbufs → Nat → Option Pbufs
  | 0, _, _ => none
  | fuel + 1, pbufs, p =>
      if p = 0 then some pbufs
      else do
        let pbuf ← pbufs p
        if decRef pbuf.ref = 0 then pbufFreeFrom fuel (Function.update pbufs p none) pbuf.next
        else some (Function.update pbufs p (some { pbuf with ref := decRef pbuf.ref }))

def pbufFree (pbufs : Pbufs) (p : Nat) : Option Pbufs := pbufFreeFrom chainFuel pbufs p

/-! Chains that belong to one owner. -/

/-- The addresses of a chain's pbufs with their payloads. -/
abbrev Chain := List (Nat × List Byte)

variable {pbufs pbufs' : Pbufs} {chain rest : Chain} {a fuel : Nat}

def Chain.addresses (chain : Chain) : List Nat := chain.map Prod.fst

def Chain.bytes (chain : Chain) : List Byte := chain.flatMap Prod.snd

/-- The pointer to a chain. -/
def Chain.address : Chain → Nat
  | [] => 0
  | (a, _) :: _ => a

/-- The chain is in memory and nobody else refers to its pbufs. -/
def Chained (pbufs : Pbufs) : Chain → Prop
  | [] => True
  | (a, payload) :: rest =>
      pbufs a = some ⟨Chain.address rest, payload, 1⟩ ∧ Chained pbufs rest

/-- A chain that lwIP has just filled. -/
def placeChain (pbufs : Pbufs) : Chain → Pbufs
  | [] => pbufs
  | (a, payload) :: rest =>
      Function.update (placeChain pbufs rest) a (some ⟨Chain.address rest, payload, 1⟩)

theorem Chained.congr (h : Chained pbufs chain)
    (hsame : ∀ a ∈ chain.addresses, pbufs' a = pbufs a) : Chained pbufs' chain := by
  induction chain with
  | nil => trivial
  | cons head rest ih =>
    obtain ⟨a, payload⟩ := head
    refine ⟨?_, ih h.2 fun b hb => hsame b (List.mem_cons_of_mem a hb)⟩
    rw [hsame a List.mem_cons_self]
    exact h.1

/-- The pbufs of a chain are allocated. -/
theorem Chained.live (h : Chained pbufs chain) (ha : a ∈ chain.addresses) : pbufs a ≠ none := by
  induction chain with
  | nil => cases ha
  | cons head rest ih =>
    rcases List.mem_cons.mp ha with rfl | ha
    · rw [h.1]
      exact nofun
    · exact ih h.2 ha

theorem placeChain_outside (ha : a ∉ chain.addresses) : placeChain pbufs chain a = pbufs a := by
  induction chain with
  | nil => rfl
  | cons head rest ih =>
    obtain ⟨b, payload⟩ := head
    have hne : a ≠ b ∧ a ∉ Chain.addresses rest := not_or.mp fun h => ha (List.mem_cons.mpr h)
    exact (Function.update_of_ne hne.1 _ _).trans (ih hne.2)

theorem placeChain_chained (hdistinct : chain.addresses.Nodup) :
    Chained (placeChain pbufs chain) chain := by
  induction chain with
  | nil => trivial
  | cons head rest ih =>
    obtain ⟨a, payload⟩ := head
    obtain ⟨hnew, hrest⟩ := List.nodup_cons.mp hdistinct
    refine ⟨Function.update_self _ _ _, (ih hrest).congr fun b hb => ?_⟩
    exact Function.update_of_ne (fun (h : b = a) => hnew (h ▸ hb)) _ _

/-- Addresses are of 32 bits and none is NULL. -/
def Chain.Addressed (chain : Chain) : Prop := ∀ a ∈ chain.addresses, 0 < a ∧ a < 2 ^ 32

theorem Chain.length_le_fuel (haddr : chain.Addressed) (hdistinct : chain.addresses.Nodup) :
    ∃ fuel, chainFuel = fuel + 1 ∧ chain.length ≤ fuel := by
  have hsub : chain.addresses.toFinset ⊆ Finset.Ico 1 (2 ^ 32) := by
    intro a ha
    rw [List.mem_toFinset] at ha
    rw [Finset.mem_Ico]
    exact haddr a ha
  have hcard := Finset.card_le_card hsub
  rw [List.toFinset_card_of_nodup hdistinct, Nat.card_Ico, Chain.addresses,
    List.length_map] at hcard
  exact ⟨2 ^ 32 - 1, by norm_num [chainFuel], hcard⟩

/-- One round of the loop. -/
theorem ippkgUnpackFrom_pbuf {pbuf : Pbuf} {q offset len : Nat} (src : Memory) (hq : q ≠ 0)
    (hlen : len ≠ 0) (hpbuf : pbufs q = some pbuf) :
    ippkgUnpackFrom pbufs (fuel + 1) q src offset len =
      ippkgUnpackFrom pbufs fuel pbuf.next (write src offset (pbuf.payload.take len))
        ((offset + min len pbuf.payload.length) % 2 ^ 16) (len - pbuf.payload.length) := by
  have hbytes : (if len < pbuf.payload.length then len else pbuf.payload.length) =
      min len pbuf.payload.length := by
    split <;> omega
  have htake : pbuf.payload.take (min len pbuf.payload.length) = pbuf.payload.take len := by
    rw [← List.take_take, List.take_length]
  have hrest : len - min len pbuf.payload.length = len - pbuf.payload.length := by omega
  rw [ippkgUnpackFrom, if_neg (not_or.mpr ⟨hq, hlen⟩), hpbuf]
  simp only [Option.bind_eq_bind, Option.bind_some, hbytes, htake, hrest]

theorem ippkgUnpackFrom_stop {q offset len : Nat} (src : Memory) (hstop : q = 0 ∨ len = 0) :
    ippkgUnpackFrom pbufs (fuel + 1) q src offset len = some (src, offset) := by
  rw [ippkgUnpackFrom, if_pos hstop]

/-- The loop copies the bytes of the whole chain, as many as there is room for. -/
theorem ippkgUnpackFrom_chain {src : Memory} {offset len : Nat} (h : Chained pbufs chain)
    (haddr : chain.Addressed) (hfuel : chain.length ≤ fuel)
    (hshort : offset + chain.bytes.length < 2 ^ 16) :
    ippkgUnpackFrom pbufs (fuel + 1) chain.address src offset len =
      some (write src offset (chain.bytes.take len), offset + min len chain.bytes.length) := by
  induction chain generalizing fuel src offset len with
  | nil =>
    rw [show Chain.address [] = 0 from rfl, ippkgUnpackFrom_stop src (.inl rfl)]
    simp [Chain.bytes]
  | cons head rest ih =>
    obtain ⟨a, payload⟩ := head
    by_cases hlen : len = 0
    · rw [ippkgUnpackFrom_stop src (.inr hlen), hlen]
      simp
    obtain ⟨fuel, rfl⟩ := Nat.exists_eq_add_of_le' (Nat.succ_le_of_lt (Nat.zero_lt_of_lt hfuel))
    have hbytes : Chain.bytes ((a, payload) :: rest) = payload ++ Chain.bytes rest := rfl
    have hnonzero : a ≠ 0 := (haddr a List.mem_cons_self).1.ne'
    have htail : Chain.Addressed rest := fun b hb => haddr b (List.mem_cons_of_mem a hb)
    rw [hbytes] at hshort ⊢
    rw [List.length_append] at hshort ⊢
    have hoffset : (offset + min len payload.length) % 2 ^ 16 =
        offset + (payload.take len).length := by
      rw [List.length_take]
      exact Nat.mod_eq_of_lt (by omega)
    rw [show Chain.address ((a, payload) :: rest) = a from rfl,
      ippkgUnpackFrom_pbuf src hnonzero hlen h.1, hoffset,
      ih h.2 htail (Nat.le_of_succ_le_succ hfuel) (by rw [List.length_take]; omega),
      write_append, ← List.take_append]
    congr 2
    rw [List.length_take]
    dsimp only
    omega

/-- `ippkg_unpack` of a whole packet. -/
theorem ippkgUnpack_chain (h : Chained pbufs chain) (haddr : chain.Addressed)
    (hdistinct : chain.addresses.Nodup) (hshort : chain.bytes.length < 2 ^ 16) (src : Memory)
    (len : Nat) :
    ippkgUnpack pbufs chain.address src len =
      some (write src 0 (chain.bytes.take len), min len chain.bytes.length) := by
  obtain ⟨fuel, hfuel, hlength⟩ := chain.length_le_fuel haddr hdistinct
  rw [ippkgUnpack, hfuel, ippkgUnpackFrom_chain h haddr hlength (by rwa [Nat.zero_add]),
    Nat.zero_add]

theorem pbufFreeFrom_owned {next p : Nat} {payload : List Byte} (hp : p ≠ 0)
    (hpbuf : pbufs p = some ⟨next, payload, 1⟩) :
    pbufFreeFrom (fuel + 1) pbufs p = pbufFreeFrom fuel (Function.update pbufs p none) next := by
  rw [pbufFreeFrom, if_neg hp, hpbuf, Option.bind_eq_bind, Option.bind_some, decRef_one,
    if_pos rfl]

/-- Freeing a chain frees its pbufs and no other one. -/
theorem pbufFreeFrom_chain (h : Chained pbufs chain) (haddr : chain.Addressed)
    (hdistinct : chain.addresses.Nodup) (hfuel : chain.length ≤ fuel) :
    ∃ pbufs', pbufFreeFrom (fuel + 1) pbufs chain.address = some pbufs' ∧
      (∀ a ∈ chain.addresses, pbufs' a = none) ∧ ∀ a ∉ chain.addresses, pbufs' a = pbufs a := by
  induction chain generalizing fuel pbufs with
  | nil =>
    refine ⟨pbufs, ?_, nofun, fun _ _ => rfl⟩
    rw [pbufFreeFrom, if_pos (show Chain.address [] = 0 from rfl)]
  | cons head rest ih =>
    obtain ⟨a, payload⟩ := head
    obtain ⟨hnew, hrest⟩ := List.nodup_cons.mp hdistinct
    obtain ⟨fuel, rfl⟩ := Nat.exists_eq_add_of_le' (Nat.succ_le_of_lt (Nat.zero_lt_of_lt hfuel))
    have hnonzero : a ≠ 0 := (haddr a List.mem_cons_self).1.ne'
    have htail : Chained (Function.update pbufs a none) rest :=
      h.2.congr fun b hb => Function.update_of_ne (fun (hba : b = a) => hnew (hba ▸ hb)) _ _
    obtain ⟨pbufs', hfree, hgone, hsame⟩ :=
      ih htail (fun b hb => haddr b (List.mem_cons_of_mem a hb)) hrest
        (Nat.le_of_succ_le_succ hfuel)
    refine ⟨pbufs', ?_, ?_, ?_⟩
    · rw [show Chain.address ((a, payload) :: rest) = a from rfl, pbufFreeFrom_owned hnonzero h.1,
        hfree]
    · intro b hb
      rcases List.mem_cons.mp hb with rfl | hb
      · exact (hsame _ hnew).trans (Function.update_self _ _ _)
      · exact hgone b hb
    · intro b hb
      obtain ⟨hne, hb⟩ := not_or.mp fun h => hb (List.mem_cons.mpr h)
      exact (hsame b hb).trans (Function.update_of_ne hne _ _)

theorem pbufFree_chain (h : Chained pbufs chain) (haddr : chain.Addressed)
    (hdistinct : chain.addresses.Nodup) :
    ∃ pbufs', pbufFree pbufs chain.address = some pbufs' ∧
      (∀ a ∈ chain.addresses, pbufs' a = none) ∧ ∀ a ∉ chain.addresses, pbufs' a = pbufs a := by
  obtain ⟨fuel, hfuel, hlength⟩ := chain.length_le_fuel haddr hdistinct
  rw [pbufFree, hfuel]
  exact pbufFreeFrom_chain h haddr hdistinct hlength

end PosixRtos.Net
