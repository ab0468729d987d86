import PosixRtos.Mqueue.Opening
import PosixRtos.Net.Packing
import PosixRtos.Net.Socket

/-! The life of one socket: `socket`, `connect`, `_write` and `_close` with the heap and the
pbufs that they take. `_close` and the failure path of `socket` free the object only; the two
queues and the chains of `_write` stay. The answers of lwIP are parameters of the calls. -/
namespace PosixRtos.Net

open PosixRtos.Library.ByteMemory PosixRtos.Library.Runs PosixRtos.Mqueue
open PosixRtos.Heap (HeapMem Owns Region Allocator heapStep heapMemInit malloc free)

def SOCK_STREAM : Int := 1

def SOCK_PACKET : Int := 2

structure Socket where
  domain : Int
  type : Int
  protocol : Int
  pcb : Nat
  rxMqd : Int
  txMqd : Int
deriving DecidableEq

/-- `sizeof(struct socket)`. -/
def sizeofSocket : Nat := 24

def socketFlag : BitVec 32 := O_CREAT ||| O_RDWR

def socketAttr : MqAttr := ⟨0, socketMaxmsg, socketMsgsize, 0⟩

structure NetSystem where
  system : System
  pbufs : Pbufs

def NetSystem.heap (n : NetSystem) : HeapMem := n.system.heap

def NetSystem.setHeap (n : NetSystem) (heap : HeapMem) : NetSystem :=
  { n with system := { n.system with heap := heap } }

/-- `socket`; `pcb` is what `tcp_new` or `udp_new` returns, or what was in the field before.
`none` is an assertion of the heap that fails, or a store to a field of NULL. -/
def socket (n : NetSystem) (domain type protocol : Int) (pcb : Nat) :
    Option (NetSystem × Option (Nat × Socket)) := do
  let (heap, p) ← (malloc n.heap sizeofSocket).toOption
  let p ← p
  let (system, rx) ←
    (mqOpenIn { n.system with heap := heap } true socketFlag socketFlag socketAttr).toOption
  let (system, tx) ← (mqOpenIn system true socketFlag socketFlag socketAttr).toOption
  let n := { n with system := system }
  if (type = SOCK_STREAM ∨ type = SOCK_PACKET) ∧ pcb = 0 then do
    let heap ← (free n.heap p).toOption
    some (n.setHeap heap, none)
  else some (n, some (p, ⟨domain, type, protocol, pcb, mqdOf rx, mqdOf tx⟩))

/-- `connect`; `ret` is the answer of `tcp_connect` or `udp_connect`. -/
def connect (socket : Socket) (ret : Int) : Int :=
  if socket.type = SOCK_STREAM ∨ socket.type = SOCK_PACKET then ret else -1

variable (pbufAlloc : Pbufs → Nat → Pbufs × Nat)

/-- `_write`; `sent` is the answer of `tcp_write` or `udp_send`, which leaves the chain with
its caller. The segments that lwIP makes of a stream are its own and are not counted. The
lengths of pbufs are of 16 bits. -/
def socketWrite (n : NetSystem) (socket : Socket) (buf : List Byte) (sent : Int) :
    Option (NetSystem × Int) :=
  if socket.type = SOCK_STREAM then some (n, sent)
  else if socket.type = SOCK_PACKET then do
    let (pbufs, _) := pbufAlloc n.pbufs (buf.length % 2 ^ 16)
    let (pbufs, pbuf) ← ippkgPack pbufAlloc pbufs buf (buf.length % 2 ^ 16)
    if pbuf = 0 then some ({ n with pbufs := pbufs }, -1)
    else some ({ n with pbufs := pbufs }, sent)
  else some (n, -1)

/-- `_close`; `closed` is the answer of `tcp_close`. -/
def socketClose (n : NetSystem) (fd : Nat) (socket : Socket) (closed : Int) :
    Option (NetSystem × Int) := do
  let ret := if socket.type = SOCK_STREAM then closed
    else if socket.type = SOCK_PACKET then 0 else -1
  let heap ← (free n.heap fd).toOption
  some (n.setHeap heap, ret)

inductive SocketPhase where
  | unopened
  | failed
  | opened (fd : Nat) (socket : Socket)
  | closed
deriving DecidableEq

structure SocketLife where
  net : NetSystem
  phase : SocketPhase

inductive SocketCall where
  | socket (domain type protocol : Int) (pcb : Nat)
  | connect (ret : Int)
  | write (buf : List Byte) (sent : Int)
  | close (closed : Int)

def lifeStep (s : SocketLife) : SocketCall → Option SocketLife
  | .socket domain type protocol pcb =>
      match s.phase with
      | .unopened => do
          let (net, result) ← socket s.net domain type protocol pcb
          match result with
          | none => some ⟨net, .failed⟩
          | some (fd, object) => some ⟨net, .opened fd object⟩
      | _ => none
  | .connect _ =>
      match s.phase with
      | .opened _ _ => some s
      | _ => none
  | .write buf sent =>
      match s.phase with
      | .opened _ object => do
          let (net, _) ← socketWrite pbufAlloc s.net object buf sent
          some { s with net := net }
      | _ => none
  | .close closed =>
      match s.phase with
      | .opened fd object => do
          let (net, _) ← socketClose s.net fd object closed
          some ⟨net, .closed⟩
      | _ => none

/-- The bytes of the buffer of a queue of a socket. -/
def queueBytes : Nat := (sizeofMqMsg + socketMsgsize) * socketMaxmsg

/-- The heap has no room for the two blocks of a queue; `h'` is what is left behind. -/
inductive NoRoom (h : HeapMem) : HeapMem → Prop where
  | buffer {h' : HeapMem} (hbuffer : malloc h queueBytes = .ok (h', none)) : NoRoom h h'
  | object {h₁ h₂ h' : HeapMem} {buffer : Nat}
      (hbuffer : malloc h queueBytes = .ok (h₁, some buffer))
      (hobject : malloc h₁ sizeofMq = .ok (h₂, none)) (hfree : free h₂ buffer = .ok h') :
      NoRoom h h'

/-- The memory is used up: there is no room for the queues of a socket, or no pbuf for the
data. -/
def Exhausted (s : SocketLife) : SocketCall → Prop
  | .socket _ _ _ _ => ∀ h p, malloc s.net.heap sizeofSocket = .ok (h, some p) →
      ∃ h₁ h₂, NoRoom h h₁ ∧ NoRoom h₁ h₂
  | .write buf _ => ∀ fd object, s.phase = .opened fd object → object.type = SOCK_PACKET →
      (pbufAlloc s.net.pbufs (buf.length % 2 ^ 16)).2 = 0
  | _ => True

/-- Every block and every pbuf that the calls have taken is free again. -/
structure Released (start n : NetSystem) : Prop where
  blocks : usedBlocks n.heap = usedBlocks start.heap
  pbufs : n.pbufs = start.pbufs

variable {pbufAlloc} {h h₁ h₂ : HeapMem} {s t : System} {queue : NewQueue}

/-! The queues. -/

theorem NoRoom.unique (hleft : NoRoom h h₁) (hright : NoRoom h h₂) : h₁ = h₂ := by
  cases hleft with
  | buffer hbuffer =>
    cases hright with
    | buffer hbuffer' =>
      rw [hbuffer] at hbuffer'
      cases hbuffer'
      rfl
    | object hbuffer' =>
      rw [hbuffer] at hbuffer'
      cases hbuffer'
  | object hbuffer hobject hfree =>
    cases hright with
    | buffer hbuffer' =>
      rw [hbuffer] at hbuffer'
      cases hbuffer'
    | object hbuffer' hobject' hfree' =>
      rw [hbuffer] at hbuffer'
      cases hbuffer'
      rw [hobject] at hobject'
      cases hobject'
      rw [hfree] at hfree'
      cases hfree'
      rfl

/-- A queue that has got its two blocks is created. -/
theorem mqSetUp_socket (s : System) (buffer size p : Nat) :
    ∃ t mq, mqSetUp s socketFlag socketAttr buffer size p = .ok (t, some (p, mq)) := by
  have hblocking : (Mq.initialized socketAttr socketFlag buffer size (.ofAddress p)).blocking =
      true := decide_eq_true (show socketFlag &&& O_NONBLOCK = 0 by decide)
  have hvalue : ¬ PosixRtos.Kernel.semValueMax < sizeT socketAttr.mqMaxmsg := by decide
  unfold mqSetUp
  dsimp only
  rw [hblocking, if_pos rfl, PosixRtos.Kernel.semInit, if_neg hvalue]
  dsimp only
  rw [if_neg (not_not.mpr rfl)]
  exact ⟨_, _, rfl⟩

/-- A queue is created exactly if there is room for it. -/
theorem mqOpenIn_room
    (hcall : mqOpenIn s true socketFlag socketFlag socketAttr = .ok (t, queue)) :
    (queue = none ∧ NoRoom s.heap t.heap) ∨ (queue ≠ none ∧ ∀ h, ¬ NoRoom s.heap h) := by
  unfold mqOpenIn at hcall
  rw [if_neg (by decide), if_neg (by decide), if_neg (by decide)] at hcall
  obtain ⟨⟨h₁, memory₁, r⟩, hzalloc, hcall⟩ := ok_of_bind_ok hcall
  have hbuffer : malloc s.heap queueBytes = .ok (h₁, r) := malloc_of_zalloc hzalloc
  cases r with
  | none =>
    cases hcall
    exact .inl ⟨rfl, .buffer hbuffer⟩
  | some buffer =>
    obtain ⟨⟨h₂, memory₂, r⟩, hzalloc, hcall⟩ := ok_of_bind_ok hcall
    have hobject : malloc h₁ sizeofMq = .ok (h₂, r) := malloc_of_zalloc hzalloc
    cases r with
    | none =>
      obtain ⟨h₃, hfree, hcall⟩ := ok_of_bind_ok hcall
      cases hcall
      exact .inl ⟨rfl, .object hbuffer hobject hfree⟩
    | some p =>
      obtain ⟨t', mq, hsetup⟩ := mqSetUp_socket ⟨h₂, memory₂, s.kernel⟩ buffer _ p
      have hqueue : queue = some (p, mq) := by
        have hsame := hsetup.symm.trans hcall
        cases hsame
        rfl
      rw [hqueue]
      refine .inr ⟨Option.some_ne_none _, fun h hroom => ?_⟩
      cases hroom with
      | buffer hbuffer' =>
        rw [hbuffer] at hbuffer'
        cases hbuffer'
      | object hbuffer' hobject' hfree' =>
        rw [hbuffer] at hbuffer'
        cases hbuffer'
        rw [hobject] at hobject'
        cases hobject'

theorem pointers_eq_nil_iff (queue : NewQueue) : queue.pointers = [] ↔ queue = none := by
  cases queue with
  | none => exact iff_of_true rfl rfl
  | some q => exact iff_of_false (List.cons_ne_nil _ _) (Option.some_ne_none _)

/-! One call. -/

variable {n n' : NetSystem} {live bs : List Nat} {domain type protocol : Int} {pcb : Nat}

theorem ok_of_toOption {ε α : Type} {x : Except ε α} {a : α} (h : x.toOption = some a) :
    x = .ok a := by
  cases x with
  | error e => cases h
  | ok b => rw [Option.some.inj h]

theorem owns_perm {live' : List Nat} (ho : Owns h live bs) (hperm : live.Perm live') :
    Owns h live' bs where
  tiled := ho.tiled
  first := ho.first
  nodup := hperm.nodup_iff.mp ho.nodup
  payloads mem := hperm.mem_iff.symm.trans (ho.payloads mem)

/-- The object of a socket that was created. -/
def objectOf (result : Option (Nat × Socket)) : List Nat := (result.map Prod.fst).toList

theorem socket_requests {result : Option (Nat × Socket)}
    (hcall : socket n domain type protocol pcb = some (n', result)) :
    ∃ heap p s₁ rx s₂ tx, malloc n.heap sizeofSocket = .ok (heap, some p) ∧
      mqOpenIn { n.system with heap := heap } true socketFlag socketFlag socketAttr = .ok (s₁, rx) ∧
      mqOpenIn s₁ true socketFlag socketFlag socketAttr = .ok (s₂, tx) ∧ n'.pbufs = n.pbufs ∧
      ((∃ heap', free s₂.heap p = .ok heap' ∧ n'.heap = heap' ∧ result = none) ∨
        (n'.heap = s₂.heap ∧ ∃ object, result = some (p, object))) := by
  unfold socket at hcall
  obtain ⟨⟨heap, r⟩, hmalloc, hcall⟩ := Option.bind_eq_some_iff.mp hcall
  cases r with
  | none => cases hcall
  | some p =>
  dsimp only [Option.bind_eq_bind, Option.bind_some] at hcall
  obtain ⟨⟨s₁, rx⟩, hrx, hcall⟩ := Option.bind_eq_some_iff.mp hcall
  obtain ⟨⟨s₂, tx⟩, htx, hcall⟩ := Option.bind_eq_some_iff.mp hcall
  dsimp only at hcall
  refine ⟨heap, p, s₁, rx, s₂, tx, ok_of_toOption hmalloc, ok_of_toOption hrx,
    ok_of_toOption htx, ?_⟩
  by_cases hfail : (type = SOCK_STREAM ∨ type = SOCK_PACKET) ∧ pcb = 0
  · rw [if_pos hfail] at hcall
    obtain ⟨heap', hfree, hcall⟩ := Option.bind_eq_some_iff.mp hcall
    cases hcall
    exact ⟨rfl, .inl ⟨heap', ok_of_toOption hfree, rfl, rfl⟩⟩
  · rw [if_neg hfail] at hcall
    cases hcall
    exact ⟨rfl, .inr ⟨rfl, _, rfl⟩⟩

/-- What is left of a call of `socket`: the object if there is one, and in any case the
queues. -/
theorem socket_owns {result : Option (Nat × Socket)} (ho : Owns n.heap live bs)
    (hcall : socket n domain type protocol pcb = some (n', result)) :
    n'.pbufs = n.pbufs ∧ ∃ blocks bs', Owns n'.heap (objectOf result ++ (blocks ++ live)) bs' ∧
      ((∀ h p, malloc n.heap sizeofSocket = .ok (h, some p) →
        ∃ h₁ h₂, NoRoom h h₁ ∧ NoRoom h₁ h₂) ↔ blocks = []) := by
  obtain ⟨heap, p, s₁, rx, s₂, tx, hmalloc, hrx, htx, hpbufs, hend⟩ := socket_requests hcall
  obtain ⟨⟨bs₁, ho₁⟩, -, -⟩ := ho.after_malloc hmalloc
  obtain ⟨bs₂, ho₂⟩ := @mqOpenIn_owns { n.system with heap := heap } s₁ _ _ _ _ _ _ _ ho₁ hrx
  obtain ⟨bs₃, ho₃⟩ := mqOpenIn_owns ho₂ htx
  have hperm : (tx.pointers ++ (rx.pointers ++ (p :: live))).Perm
      (p :: ((tx.pointers ++ rx.pointers) ++ live)) := by
    rw [← List.append_assoc]
    exact List.perm_middle
  have howns : Owns s₂.heap (p :: ((tx.pointers ++ rx.pointers) ++ live)) bs₃ := owns_perm ho₃ hperm
  refine ⟨hpbufs, tx.pointers ++ rx.pointers, ?_⟩
  have hblocks : (∀ h p, malloc n.heap sizeofSocket = .ok (h, some p) →
      ∃ h₁ h₂, NoRoom h h₁ ∧ NoRoom h₁ h₂) ↔ tx.pointers ++ rx.pointers = [] := by
    rw [List.append_eq_nil_iff, pointers_eq_nil_iff, pointers_eq_nil_iff]
    constructor
    · intro hall
      obtain ⟨h₁, h₂, hfirst, hsecond⟩ := hall heap p hmalloc
      obtain ⟨hrxNone, hroom⟩ := (mqOpenIn_room hrx).resolve_right fun h => h.2 _ hfirst
      rw [hfirst.unique hroom] at hsecond
      exact ⟨((mqOpenIn_room htx).resolve_right fun h => h.2 _ hsecond).1, hrxNone⟩
    · rintro ⟨htxNone, hrxNone⟩ h p' hmalloc'
      rw [hmalloc] at hmalloc'
      cases hmalloc'
      exact ⟨_, _, ((mqOpenIn_room hrx).resolve_right fun h => h.1 hrxNone).2,
        ((mqOpenIn_room htx).resolve_right fun h => h.1 htxNone).2⟩
  rcases hend with ⟨heap', hfree, hheap, rfl⟩ | ⟨hheap, object, rfl⟩
  · obtain ⟨bs₄, ho₄⟩ := free_owns howns List.mem_cons_self hfree
    rw [List.erase_cons_head] at ho₄
    exact ⟨bs₄, hheap ▸ ho₄, hblocks⟩
  · exact ⟨bs₃, hheap ▸ howns, hblocks⟩

/-- The pbufs at the addresses `taken` have been allocated in between. -/
structure Grown (pbufs pbufs' : Pbufs) (taken : List Nat) : Prop where
  fresh : ∀ a ∈ taken, pbufs a = none ∧ pbufs' a ≠ none
  others : ∀ a ∉ taken, pbufs' a = pbufs a

variable {pbufs pbufs₁ pbufs₂ : Pbufs} {taken taken₁ taken₂ : List Nat} {chain : Chain}

theorem Grown.refl (pbufs : Pbufs) : Grown pbufs pbufs [] where
  fresh _ ha := absurd ha List.not_mem_nil
  others _ _ := rfl

theorem Grown.trans (hfirst : Grown pbufs pbufs₁ taken₁) (hsecond : Grown pbufs₁ pbufs₂ taken₂) :
    Grown pbufs pbufs₂ (taken₂ ++ taken₁) where
  fresh a ha := by
    by_cases ha₁ : a ∈ taken₁
    · have hlive := (hfirst.fresh a ha₁).2
      have ha₂ : a ∉ taken₂ := fun h => hlive (hsecond.fresh a h).1
      rw [hsecond.others a ha₂]
      exact hfirst.fresh a ha₁
    · have ha₂ := (List.mem_append.mp ha).resolve_right ha₁
      rw [← hfirst.others a ha₁]
      exact hsecond.fresh a ha₂
  others a ha := by
    obtain ⟨ha₂, ha₁⟩ := not_or.mp fun h => ha (List.mem_append.mpr h)
    rw [hsecond.others a ha₂, hfirst.others a ha₁]

theorem Grown.eq_iff (hgrown : Grown pbufs pbufs₁ taken) : pbufs₁ = pbufs ↔ taken = [] := by
  constructor
  · intro hsame
    cases taken with
    | nil => rfl
    | cons a rest =>
      obtain ⟨hnone, hsome⟩ := hgrown.fresh a List.mem_cons_self
      rw [hsame] at hsome
      exact absurd hnone hsome
  · intro hnil
    subst hnil
    funext a
    exact hgrown.others a List.not_mem_nil

theorem NewChain.grown (hnew : NewChain pbufs pbufs₁ chain) :
    Grown pbufs pbufs₁ chain.addresses where
  fresh a ha := ⟨hnew.fresh a ha, hnew.chained.live ha⟩
  others := hnew.others

variable {object : Socket} {buf : List Byte} {sent ret : Int}

/-- `_write` keeps the chains of both its allocations. -/
theorem packet_write_grown (halloc : Allocates pbufAlloc) (htype : object.type = SOCK_PACKET)
    (hcall : socketWrite pbufAlloc n object buf sent = some (n', ret)) :
    n'.system = n.system ∧ ∃ taken, Grown n.pbufs n'.pbufs taken ∧
      ((pbufAlloc n.pbufs (buf.length % 2 ^ 16)).2 = 0 ↔ taken = []) := by
  have hshort : buf.length % 2 ^ 16 < 2 ^ 16 := Nat.mod_lt _ (by decide)
  have hstream : object.type ≠ SOCK_STREAM := by
    rw [htype]
    decide
  unfold socketWrite at hcall
  rw [if_neg hstream, if_pos htype] at hcall
  dsimp only at hcall
  obtain ⟨⟨pbufs', pbuf⟩, hpack, hcall⟩ := Option.bind_eq_some_iff.mp hcall
  have hend : n'.system = n.system ∧ n'.pbufs = pbufs' := by
    dsimp only at hcall
    split at hcall
    · cases hcall
      exact ⟨rfl, rfl⟩
    · cases hcall
      exact ⟨rfl, rfl⟩
  refine ⟨hend.1, ?_⟩
  rw [hend.2]
  rcases halloc n.pbufs (buf.length % 2 ^ 16) with hnull | ⟨chain, pbufs₁, hfirst, hne, -, hnew⟩
  · -- the second request meets the same pool
    rw [hnull] at hpack ⊢
    rw [ippkgPack, hnull] at hpack
    cases hpack
    exact ⟨[], .refl _, iff_of_true rfl rfl⟩
  · rw [hfirst] at hpack ⊢
    have hdropped : chain.addresses ≠ [] := fun h => hne (List.map_eq_nil_iff.mp h)
    have haddress := Chain.address_ne_zero hnew.addressed hne
    rcases ippkgPack_chain halloc pbufs₁ (Nat.mod_le _ _) hshort with
      ⟨-, hsecond⟩ | ⟨chain₂, pbufs₂, hsecond, -, -, hnew₂⟩
    · rw [hsecond] at hpack
      cases hpack
      exact ⟨chain.addresses, hnew.grown, iff_of_false haddress hdropped⟩
    · rw [hsecond] at hpack
      cases hpack
      refine ⟨chain₂.addresses ++ chain.addresses, hnew.grown.trans hnew₂.grown,
        iff_of_false haddress fun h => hdropped (List.append_eq_nil_iff.mp h).2⟩

theorem other_write_same (htype : object.type ≠ SOCK_PACKET)
    (hcall : socketWrite pbufAlloc n object buf sent = some (n', ret)) : n' = n := by
  unfold socketWrite at hcall
  rw [if_neg htype] at hcall
  by_cases hstream : object.type = SOCK_STREAM
  · rw [if_pos hstream] at hcall
    cases hcall
    rfl
  · rw [if_neg hstream] at hcall
    cases hcall
    rfl

/-! Runs. -/

/-- The object of a socket that is open. -/
def SocketLife.held (s : SocketLife) : List Nat :=
  match s.phase with
  | .opened fd _ => [fd]
  | _ => []

/-- Besides the object there are the blocks and the pbufs that nobody will free. -/
structure Tracked (live : List Nat) (pool : Pbufs) (s : SocketLife) (blocks taken : List Nat) :
    Prop where
  heap : ∃ bs, Owns s.net.heap (s.held ++ (blocks ++ live)) bs
  pbufs : Grown pool s.net.pbufs taken

variable {pool : Pbufs} {u u' : SocketLife} {blocks : List Nat} {call : SocketCall}

theorem lifeStep_socket (ht : Tracked live pool u blocks taken)
    (hstep : lifeStep pbufAlloc u (.socket domain type protocol pcb) = some u') :
    ∃ blocks', Tracked live pool u' (blocks' ++ blocks) taken ∧
      (Exhausted pbufAlloc u (.socket domain type protocol pcb) ↔ blocks' = []) := by
  obtain ⟨net, phase⟩ := u
  cases phase with
  | unopened =>
    obtain ⟨⟨net', result⟩, hcall, hstep⟩ := Option.bind_eq_some_iff.mp hstep
    obtain ⟨⟨bs, ho⟩, hgrown⟩ := ht
    obtain ⟨hpbufs, blocks', bs', ho', hiff⟩ := socket_owns ho hcall
    have howns : Owns net'.heap (objectOf result ++ ((blocks' ++ blocks) ++ live)) bs' := by
      rw [List.append_assoc]
      exact ho'
    refine ⟨blocks', ?_, hiff⟩
    cases result with
    | none =>
      cases hstep
      exact ⟨⟨bs', howns⟩, hpbufs ▸ hgrown⟩
    | some result =>
      cases hstep
      exact ⟨⟨bs', howns⟩, hpbufs ▸ hgrown⟩
  | failed => cases hstep
  | opened fd object => cases hstep
  | closed => cases hstep

theorem lifeStep_connect (ht : Tracked live pool u blocks taken)
    (hstep : lifeStep pbufAlloc u (.connect ret) = some u') :
    Tracked live pool u' blocks taken := by
  obtain ⟨net, phase⟩ := u
  cases phase with
  | opened fd object =>
    cases hstep
    exact ht
  | unopened => cases hstep
  | failed => cases hstep
  | closed => cases hstep

theorem lifeStep_write (halloc : Allocates pbufAlloc) (ht : Tracked live pool u blocks taken)
    (hstep : lifeStep pbufAlloc u (.write buf sent) = some u') :
    ∃ taken', Tracked live pool u' blocks (taken' ++ taken) ∧
      (Exhausted pbufAlloc u (.write buf sent) ↔ taken' = []) := by
  obtain ⟨net, phase⟩ := u
  cases phase with
  | opened fd object =>
    obtain ⟨⟨net', ret⟩, hcall, hstep⟩ := Option.bind_eq_some_iff.mp hstep
    cases hstep
    obtain ⟨hheap, hgrown⟩ := ht
    have hexhausted : Exhausted pbufAlloc ⟨net, .opened fd object⟩ (.write buf sent) ↔
        (object.type = SOCK_PACKET → (pbufAlloc net.pbufs (buf.length % 2 ^ 16)).2 = 0) := by
      constructor
      · intro h
        exact h fd object rfl
      · rintro h fd' object' hphase htype
        cases hphase
        exact h htype
    rw [hexhausted]
    by_cases htype : object.type = SOCK_PACKET
    · obtain ⟨hsystem, taken', hgrown', hiff⟩ := packet_write_grown halloc htype hcall
      refine ⟨taken', ⟨?_, hgrown.trans hgrown'⟩, ?_⟩
      · unfold NetSystem.heap at hheap ⊢
        rw [hsystem]
        exact hheap
      · rw [← hiff]
        exact ⟨fun h => h htype, fun h _ => h⟩
    · obtain rfl := other_write_same htype hcall
      exact ⟨[], ⟨hheap, hgrown⟩, iff_of_true (fun h => absurd h htype) rfl⟩
  | unopened => cases hstep
  | failed => cases hstep
  | closed => cases hstep

theorem lifeStep_close (ht : Tracked live pool u blocks taken)
    (hstep : lifeStep pbufAlloc u (.close ret) = some u') : Tracked live pool u' blocks taken := by
  obtain ⟨net, phase⟩ := u
  cases phase with
  | opened fd object =>
    obtain ⟨⟨net', ret⟩, hcall, hstep⟩ := Option.bind_eq_some_iff.mp hstep
    cases hstep
    obtain ⟨heap, hfree, hcall⟩ := Option.bind_eq_some_iff.mp hcall
    cases hcall
    obtain ⟨⟨bs, ho⟩, hgrown⟩ := ht
    obtain ⟨bs', ho'⟩ := free_owns ho List.mem_cons_self (ok_of_toOption hfree)
    change Owns heap ((fd :: (blocks ++ live)).erase fd) bs' at ho'
    rw [List.erase_cons_head] at ho'
    exact ⟨⟨bs', ho'⟩, hgrown⟩
  | unopened => cases hstep
  | failed => cases hstep
  | closed => cases hstep

/-- A step adds something exactly if the memory is not used up. -/
theorem lifeStep_tracked (halloc : Allocates pbufAlloc) (ht : Tracked live pool u blocks taken)
    (hstep : lifeStep pbufAlloc u call = some u') :
    ∃ blocks' taken', Tracked live pool u' (blocks' ++ blocks) (taken' ++ taken) ∧
      (Exhausted pbufAlloc u call ↔ blocks' = [] ∧ taken' = []) := by
  cases call with
  | socket domain type protocol pcb =>
    obtain ⟨blocks', ht', hiff⟩ := lifeStep_socket ht hstep
    exact ⟨blocks', [], ht', hiff.trans (and_iff_left rfl).symm⟩
  | connect ret => exact ⟨[], [], lifeStep_connect ht hstep, iff_of_true trivial ⟨rfl, rfl⟩⟩
  | write buf sent =>
    obtain ⟨taken', ht', hiff⟩ := lifeStep_write halloc ht hstep
    exact ⟨[], taken', ht', hiff.trans (and_iff_right rfl).symm⟩
  | close closed => exact ⟨[], [], lifeStep_close ht hstep, iff_of_true trivial ⟨rfl, rfl⟩⟩

variable {start : NetSystem} {calls : List SocketCall}

/-- Along a run nothing is ever given back of what was added. -/
theorem follows_tracked (halloc : Allocates pbufAlloc) (ho : Owns start.heap live bs)
    (hrun : Follows (lifeStep pbufAlloc) anyStep ⟨start, .unopened⟩ calls u) :
    ∃ blocks taken, Tracked live start.pbufs u blocks taken ∧
      (Follows (lifeStep pbufAlloc) (Exhausted pbufAlloc) ⟨start, .unopened⟩ calls u ↔
        blocks = [] ∧ taken = []) := by
  induction hrun with
  | nil => exact ⟨[], [], ⟨⟨bs, ho⟩, .refl _⟩, iff_of_true .nil ⟨rfl, rfl⟩⟩
  | snoc hbefore _ hstep ih =>
    obtain ⟨blocks, taken, ht, hiff⟩ := ih
    obtain ⟨blocks', taken', ht', hiff'⟩ := lifeStep_tracked halloc ht hstep
    refine ⟨blocks' ++ blocks, taken' ++ taken, ht', ?_⟩
    rw [List.append_eq_nil_iff, List.append_eq_nil_iff, and_and_and_comm, ← hiff, ← hiff', and_comm]
    constructor
    · intro hall
      obtain ⟨v, hfollows, hok, -⟩ := hall.last
      obtain rfl := hbefore.end_unique hfollows
      exact ⟨hfollows, hok⟩
    · rintro ⟨hfollows, hok⟩
      exact .snoc hfollows hok hstep

/-- More blocks are in use exactly if some were added. -/
theorem usedBlocks_eq_iff {bs' : List Nat} (ho : Owns h live bs)
    (ho' : Owns h₁ (blocks ++ live) bs') : usedBlocks h₁ = usedBlocks h ↔ blocks = [] := by
  constructor
  · intro hsame
    cases blocks with
    | nil => rfl
    | cons p rest =>
      obtain ⟨b, hb, hused, hp⟩ := (ho'.payloads p).mp List.mem_cons_self
      have hmem : b ∈ usedBlocks h₁ := ⟨ho'.tiled.blocks_eq.symm ▸ hb, hused⟩
      rw [hsame] at hmem
      have hlive : p ∈ live :=
        (ho.payloads p).mpr ⟨b, ho.tiled.blocks_eq ▸ hmem.1, hmem.2, hp⟩
      exact absurd (List.mem_append_right rest hlive) (List.nodup_cons.mp ho'.nodup).1
  · intro hnil
    subst hnil
    exact usedBlocks_eq ho ho'

/-- When `socket` has failed or `_close` has returned, everything is free again exactly if
the memory was used up at each call. -/
theorem socket_released_iff {beginAddr endAddr : Nat} {h₀ : HeapMem} {a : Allocator}
    (halloc : Allocates pbufAlloc) (hregion : Region beginAddr endAddr)
    (hheap : Reaches heapStep anyStep ⟨heapMemInit h₀ beginAddr endAddr, []⟩ a)
    (hstart : start.heap = a.heap)
    (hrun : Follows (lifeStep pbufAlloc) anyStep ⟨start, .unopened⟩ calls u)
    (hended : u.phase = .failed ∨ u.phase = .closed) :
    Released start u.net ↔
      Follows (lifeStep pbufAlloc) (Exhausted pbufAlloc) ⟨start, .unopened⟩ calls u := by
  obtain ⟨⟨bs, ho⟩, -, -⟩ := PosixRtos.Heap.reaches_owns hregion hheap
  rw [← hstart] at ho
  obtain ⟨blocks, taken, ⟨⟨bs', ho'⟩, hgrown⟩, hiff⟩ := follows_tracked halloc ho hrun
  have hheld : u.held = [] := by
    unfold SocketLife.held
    rcases hended with hphase | hphase
    · rw [hphase]
    · rw [hphase]
  rw [hheld, List.nil_append] at ho'
  rw [hiff, ← usedBlocks_eq_iff ho ho', ← hgrown.eq_iff]
  exact ⟨fun h => ⟨h.blocks, h.pbufs⟩, fun h => ⟨h.1, h.2⟩⟩

/-- A machine with this heap and no pbufs. -/
def netOn (heap : HeapMem) : NetSystem :=
  ⟨⟨heap, fun _ => 0, PosixRtos.Kernel.clearedState⟩, fun _ => none⟩

/-- A pool that is used up. -/
def noPbufs (pbufs : Pbufs) (_len : Nat) : Pbufs × Nat := (pbufs, 0)

/-- A socket on a heap with room for its object only, and a pool without pbufs. -/
theorem exhausted_socket_released : ∃ a u,
    Reaches heapStep anyStep PosixRtos.Heap.smallHeap a ∧ u.phase = .closed ∧
    Follows (lifeStep noPbufs) anyStep ⟨netOn a.heap, .unopened⟩
      [.socket 0 SOCK_PACKET 0 1, .write [7] 0, .close 0] u ∧ Released (netOn a.heap) u.net := by
  have hfacts : (runInputs heapStep anyStep [.malloc 800] PosixRtos.Heap.smallHeap).map (fun a =>
      ((lifeStep noPbufs ⟨netOn a.heap, .unopened⟩ (.socket 0 SOCK_PACKET 0 1)).bind fun u₁ =>
        (lifeStep noPbufs u₁ (.write [7] 0)).bind fun u₂ =>
          (lifeStep noPbufs u₂ (.close 0)).map SocketLife.phase,
      (malloc a.heap sizeofSocket).toOption.bind fun r₁ =>
        (malloc r₁.1 queueBytes).toOption.bind fun r₂ =>
          (malloc r₂.1 queueBytes).toOption.map fun r₃ => (r₂.2, r₃.2))) =
      some (some .closed, some (none, none)) := by decide +kernel
  obtain ⟨a, ha, hpair⟩ := Option.map_eq_some_iff.mp hfacts
  obtain ⟨hcalls, hroom⟩ := Prod.mk.inj hpair
  obtain ⟨u₁, hsocket, hcalls⟩ := Option.bind_eq_some_iff.mp hcalls
  obtain ⟨u₂, hwrite, hcalls⟩ := Option.bind_eq_some_iff.mp hcalls
  obtain ⟨u₃, hclose, hphase⟩ := Option.map_eq_some_iff.mp hcalls
  obtain ⟨⟨h₁, p⟩, hmalloc, hroom⟩ := Option.bind_eq_some_iff.mp hroom
  obtain ⟨⟨h₂, r₂⟩, hfirst, hroom⟩ := Option.bind_eq_some_iff.mp hroom
  obtain ⟨⟨h₃, r₃⟩, hsecond, hnone⟩ := Option.map_eq_some_iff.mp hroom
  obtain ⟨rfl, rfl⟩ := Prod.mk.inj hnone
  have hexhausted : Exhausted noPbufs ⟨netOn a.heap, .unopened⟩ (.socket 0 SOCK_PACKET 0 1) := by
    intro h p' hcall
    have hsame : Except.ok (h, some p') = Except.ok (h₁, p) :=
      hcall.symm.trans (ok_of_toOption hmalloc)
    cases hsame
    exact ⟨h₂, h₃, .buffer (ok_of_toOption hfirst), .buffer (ok_of_toOption hsecond)⟩
  have hempty : Exhausted noPbufs u₁ (.write [7] 0) := fun _ _ _ _ => rfl
  have hrun : Follows (lifeStep noPbufs) (Exhausted noPbufs) ⟨netOn a.heap, .unopened⟩
      [.socket 0 SOCK_PACKET 0 1, .write [7] 0, .close 0] u₃ :=
    .snoc (.snoc (.snoc .nil hexhausted hsocket) hempty hwrite) trivial hclose
  have hany : Follows (lifeStep noPbufs) anyStep ⟨netOn a.heap, .unopened⟩
      [.socket 0 SOCK_PACKET 0 1, .write [7] 0, .close 0] u₃ :=
    .snoc (.snoc (.snoc .nil trivial hsocket) trivial hwrite) trivial hclose
  have hheap : Reaches heapStep anyStep PosixRtos.Heap.smallHeap a := .of_runInputs ha
  exact ⟨a, u₃, hheap, hphase, hany, (socket_released_iff (fun _ _ => .inl rfl)
    ⟨by decide, by decide, by decide⟩ hheap rfl hany (.inr hphase)).mpr hrun⟩

/-- One packet: the queues and the chain are still there when the socket is closed. -/
theorem closed_socket_leaks : ∃ u, u.phase = .closed ∧
    Follows (lifeStep halves) anyStep ⟨netOn PosixRtos.Heap.smallHeap.heap, .unopened⟩
      [.socket 0 SOCK_PACKET 0 1, .write [7] 0, .close 0] u ∧
    u.net.heap.used 0x20000028 = true ∧ (u.net.pbufs 0x1000).isSome ∧
    ¬ Released (netOn PosixRtos.Heap.smallHeap.heap) u.net := by
  have hfacts : ((lifeStep halves ⟨netOn PosixRtos.Heap.smallHeap.heap, .unopened⟩
      (.socket 0 SOCK_PACKET 0 1)).bind fun u₁ =>
        (lifeStep halves u₁ (.write [7] 0)).bind fun u₂ =>
          (lifeStep halves u₂ (.close 0)).map fun u₃ =>
            (u₃.phase, u₃.net.heap.used 0x20000028, (u₃.net.pbufs 0x1000).isSome)) =
      some (.closed, true, true) := by decide +kernel
  obtain ⟨u₁, hsocket, hfacts⟩ := Option.bind_eq_some_iff.mp hfacts
  obtain ⟨u₂, hwrite, hfacts⟩ := Option.bind_eq_some_iff.mp hfacts
  obtain ⟨u₃, hclose, hfacts⟩ := Option.map_eq_some_iff.mp hfacts
  simp only [Prod.mk.injEq] at hfacts
  obtain ⟨hphase, hused, hpbuf⟩ := hfacts
  refine ⟨u₃, hphase, .snoc (.snoc (.snoc .nil trivial hsocket) trivial hwrite) trivial hclose,
    hused, hpbuf, fun h => ?_⟩
  rw [h.pbufs] at hpbuf
  cases hpbuf

end PosixRtos.Net
