import PosixRtos.Kernel.Invariant
import PosixRtos.Library.Runs

/-! What the operations of the scheduler do to its lists: one lemma for the
choice of the next thread, one for the loop over sleeping threads, and the
relation `Evolves`, which every operation satisfies that puts no thread to
rest. -/
namespace PosixRtos.Kernel

open PosixRtos.Library.Rings PosixRtos.Library.Runs IntrusiveList

variable {k k' k'' : State} {L L' L'' : Head → List Tid} {t u : Tid} {h : Head}

theorem State.headEntry_eq (hl : Lists k.links L) (h : Head) : k.headEntry h = (L h).head? := by
  unfold State.headEntry
  rw [hl.next_head h]
  cases L h <;> rfl

/-- `t` heads the non-empty ready list of the highest priority. -/
def IsHighest (L : Head → List Tid) (t : Tid) : Prop :=
  ∃ p rest, L (.ready p) = t :: rest ∧ ∀ q, p < q → L (.ready q) = []

theorem Inv.group_ne_zero (hi : Inv k L) {p : Priority} (hp : L (.ready p) ≠ []) :
    k.threadReadyGroup ≠ 0 := by
  intro hzero
  have hbit := (hi.group p).mpr hp
  simp [hzero] at hbit

theorem Inv.isHighest (hi : Inv k L) (ht : k.highestReadyThread = some t) : IsHighest L t := by
  unfold State.highestReadyThread at ht
  rw [State.headEntry_eq hi.lists] at ht
  obtain ⟨rest, hrest⟩ := List.head?_eq_some_iff.mp ht
  refine ⟨_, rest, hrest, ?_⟩
  intro q hq
  have hgroup := hi.group_ne_zero (by rw [hrest]; simp)
  have hlow := (schedGetHighestReadyGroup_spec hgroup).2 q (by
    have := Nat.mod_eq_of_lt (schedGetHighestReadyGroup_lt k.threadReadyGroup)
    simpa [Fin.lt_def, Fin.ofNat, this] using hq)
  by_contra hne
  exact Bool.false_ne_true (hlow.symm.trans ((hi.group q).mpr hne))

theorem Inv.exists_highest (hi : Inv k L) {p : Priority} (hp : L (.ready p) ≠ []) :
    ∃ t, k.highestReadyThread = some t := by
  have hbit := (schedGetHighestReadyGroup_spec (hi.group_ne_zero hp)).1
  have hlt := schedGetHighestReadyGroup_lt k.threadReadyGroup
  have hval : (Fin.ofNat 32 (schedGetHighestReadyGroup k.threadReadyGroup)).val =
      schedGetHighestReadyGroup k.threadReadyGroup := Nat.mod_eq_of_lt hlt
  unfold State.highestReadyThread
  rw [State.headEntry_eq hi.lists]
  have hne := (hi.group (Fin.ofNat 32 (schedGetHighestReadyGroup k.threadReadyGroup))).mp (by
    rwa [hval])
  obtain ⟨x, xs, hcons⟩ := List.exists_cons_of_ne_nil hne
  exact ⟨x, by rw [hcons]; rfl⟩

theorem IsHighest.runnable (hi : Inv k L) (ht : IsHighest L t) : t < k.count ∧ k.Runnable t := by
  obtain ⟨p, rest, hlist, -⟩ := ht
  have hmem : t ∈ L (.ready p) := by simp [hlist]
  exact ⟨hi.created hmem, (hi.runnable_of_ready hmem).1⟩

/-- A switch picks the head of the highest ready list; nothing changes but the
current thread and the words of the context switch. -/
theorem schedSwitchThread_spec (hi : Inv k L) (hs : schedSwitchThread k = some k') :
    ∃ t, IsHighest L t ∧ k' = { k with currentThread := some t, cpu := k'.cpu } := by
  unfold schedSwitchThread at hs
  obtain ⟨toThread, hto, hs⟩ := Option.bind_eq_some_iff.mp hs
  obtain ⟨fromThread, hfrom, hs⟩ := Option.bind_eq_some_iff.mp hs
  refine ⟨toThread, hi.isHighest hto, ?_⟩
  split at hs
  · cases hs
    rfl
  · next heq =>
    cases hs
    rw [not_not] at heq
    rw [heq, ← hfrom]

theorem schedSwitchThread_isSome (hi : Inv k L) (hcur : k.currentThread = some u)
    {p : Priority} (hp : L (.ready p) ≠ []) : ∃ k', schedSwitchThread k = some k' := by
  obtain ⟨t, ht⟩ := hi.exists_highest hp
  simp only [schedSwitchThread, ht, hcur, Option.bind_eq_bind, Option.bind_some]
  split
  · exact ⟨_, rfl⟩
  · exact ⟨_, rfl⟩

/-- What a masked section may do to the words of the context switch: nothing, or
one request to go from the old current thread to the new one, with the slots
that their statuses select at that moment. -/
def CpuSwitch (k k' : State) : Prop :=
  (k'.cpu = k.cpu ∧ k'.currentThread = k.currentThread) ∨
    ∃ a b, k.currentThread = some a ∧ k'.currentThread = some b ∧
      k'.cpu = hwContextSwitch k.cpu (k'.contextSlot a) (k'.contextSlot b)

theorem CpuSwitch.of_eq (hsw : CpuSwitch k' k'') (hcpu : k'.cpu = k.cpu)
    (hcur : k'.currentThread = k.currentThread) : CpuSwitch k k'' := by
  unfold CpuSwitch at *
  rwa [hcpu, hcur] at hsw

theorem schedSwitchThread_cpu (hs : schedSwitchThread k = some k') : CpuSwitch k k' := by
  unfold schedSwitchThread at hs
  obtain ⟨toThread, hto, hs⟩ := Option.bind_eq_some_iff.mp hs
  obtain ⟨fromThread, hfrom, hs⟩ := Option.bind_eq_some_iff.mp hs
  split at hs
  · cases hs
    exact .inr ⟨fromThread, toThread, hfrom, rfl, rfl⟩
  · cases hs
    exact .inl ⟨rfl, rfl⟩

/-- The scheduler is not started, or runs a thread that is in a ready list. -/
def State.CurrentRunnable (k : State) : Prop :=
  ∀ t, k.currentThread = some t → t < k.count ∧ k.Runnable t

theorem State.CurrentRunnable.of_same (hc : k.CurrentRunnable) (hsame : SameQueues k k')
    (hcur : k'.currentThread = k.currentThread) : k'.CurrentRunnable := by
  intro t ht
  obtain ⟨hlt, hrun⟩ := hc t (hcur ▸ ht)
  exact ⟨hsame.count ▸ hlt, (hsame.runnable_iff t).mpr hrun⟩

/-- From `k` with the lists `L` the scheduler has come to `k'` with the lists
`L'`, and no thread was taken off the ready lists on the way. -/
structure Evolves (k : State) (L : Head → List Tid) (k' : State) (L' : Head → List Tid) : Prop where
  inv : Inv k' L'
  count : k'.count = k.count
  ownThread : k'.ownThread = k.ownThread
  sem : k'.sem = k.sem
  sp : ∀ u, (k'.thread u).sp = (k.thread u).sp
  runnable : ∀ u, k.Runnable u → k'.Runnable u
  shrink : ∀ h, (∀ p, h ≠ .ready p) → (L' h).Sublist (L h)

theorem Evolves.refl (hi : Inv k L) : Evolves k L k L :=
  ⟨hi, rfl, rfl, rfl, fun _ => rfl, fun _ hu => hu, fun _ _ => List.Sublist.refl _⟩

theorem Evolves.trans (hkk : Evolves k L k' L') (hkk' : Evolves k' L' k'' L'') :
    Evolves k L k'' L'' where
  inv := hkk'.inv
  count := hkk'.count.trans hkk.count
  ownThread := hkk'.ownThread.trans hkk.ownThread
  sem := hkk'.sem.trans hkk.sem
  sp u := (hkk'.sp u).trans (hkk.sp u)
  runnable u hu := hkk'.runnable u (hkk.runnable u hu)
  shrink h hh := (hkk'.shrink h hh).trans (hkk.shrink h hh)

theorem Evolves.same (hi : Inv k L) (hsame : SameQueues k k')
    (hown : k'.ownThread = k.ownThread) (hsem : k'.sem = k.sem)
    (hsp : ∀ u, (k'.thread u).sp = (k.thread u).sp) : Evolves k L k' L where
  inv := hi.congr hsame
  count := hsame.count
  ownThread := hown
  sem := hsem
  sp := hsp
  runnable u hu := (hsame.runnable_iff u).mpr hu
  shrink _ _ := List.Sublist.refl _

theorem runnable_enqueueReady {status : Status} (hs : status = .ready ∨ status = .int) :
    (k.enqueueReady t status).Runnable t := by
  simpa [State.Runnable] using hs

theorem Evolves.enqueueReady (hi : Inv k L) (ht : t < k.count) {status : Status}
    (hs : status = .ready ∨ status = .int) :
    Evolves k L (k.enqueueReady t status) (moved L t (.ready (k.thread t).curPrio)) where
  inv := (hi.except ht).enqueueReady hs
  count := rfl
  ownThread := rfl
  sem := rfl
  sp u := by simp
  runnable u hu := by
    by_cases hut : u = t
    · subst hut
      exact runnable_enqueueReady hs
    · simpa [State.Runnable, State.setStatus_of_ne k hut] using hu
  shrink h hh := by
    rw [moved_of_ne (hh _)]
    exact List.erase_sublist

theorem Evolves.switch (hi : Inv k L) (hs : schedSwitchThread k = some k') :
    Evolves k L k' L ∧ k'.CurrentRunnable := by
  obtain ⟨t, ht, hk'⟩ := schedSwitchThread_spec hi hs
  rw [hk']
  refine ⟨.same hi .outside rfl rfl fun _ => rfl, ?_⟩
  intro u hu
  cases hu
  have hrun := ht.runnable hi
  exact hrun

/-! The loop over the sleeping threads. -/

theorem Evolves.setTicks (hi : Inv k L) (f : Thread → Thread)
    (hstatus : ∀ x, (f x).status = x.status) (hprio : ∀ x, (f x).curPrio = x.curPrio)
    (hsp : ∀ x, (f x).sp = x.sp) : Evolves k L (k.setThread t f) L := by
  have hsame : SameQueues k (k.setThread t f) := sameQueues_setThread f hstatus hprio
  exact .same hi hsame rfl rfl (k.setThread_field t f Thread.sp hsp)

/-- What stays as it was while sleeping threads are woken. -/
structure OnlySleepers (k k' : State) : Prop where
  current : k'.currentThread = k.currentThread
  cpu : k'.cpu = k.cpu
  status : ∀ u, (k.thread u).status ≠ .sleep → (k'.thread u).status = (k.thread u).status

theorem OnlySleepers.trans (hkk : OnlySleepers k k') (hkk' : OnlySleepers k' k'') :
    OnlySleepers k k'' where
  current := hkk'.current.trans hkk.current
  cpu := hkk'.cpu.trans hkk.cpu
  status u hu := by
    have hmid := hkk.status u hu
    rw [hkk'.status u (hmid ▸ hu), hmid]

/-- One sleeping thread: its ticks are counted down, and it may be woken. The
threads behind it stay in the sleep list. -/
private theorem wakeupEntry_spec {kept rest : List Tid} (hi : Inv k L)
    (hsleep : L .sleep = kept ++ t :: rest) :
    ∃ k' L' kept', wakeupEntry (.node t) k = some k' ∧ Evolves k L k' L' ∧ OnlySleepers k k' ∧
      L' .sleep = kept' ++ rest := by
  have hmem : t ∈ L .sleep := by simp [hsleep]
  have hasleep : (k.thread t).status = .sleep := hi.names_of_mem hmem
  let tick : Thread → Thread := fun x => { x with sleepTicks := x.sleepTicks - 1 }
  have htick : Evolves k L (k.setThread t tick) L :=
    .setTicks hi tick (fun _ => rfl) (fun _ => rfl) (fun _ => rfl)
  have hquiet : OnlySleepers k (k.setThread t tick) := by
    refine ⟨rfl, rfl, fun u hu => ?_⟩
    by_cases hut : u = t
    · subst hut
      exact absurd hasleep hu
    · rw [State.setThread_of_ne k hut]
  by_cases hzero : ((k.setThread t tick).thread t).sleepTicks = 0
  · have hwake := Evolves.enqueueReady htick.inv (hi.created hmem) (.inl rfl)
    have hcall : wakeupEntry (.node t) k = some ((k.setThread t tick).enqueueReady t .ready) := by
      simp only [wakeupEntry]
      rw [if_pos hzero]
      rfl
    refine ⟨_, _, kept, hcall, htick.trans hwake, ?_, ?_⟩
    · refine hquiet.trans ⟨rfl, rfl, fun u hu => ?_⟩
      have hut : u ≠ t := by
        rintro rfl
        exact hu ((k.setThread_field u tick Thread.status (fun _ => rfl) u).trans hasleep)
      rw [State.enqueueReady_thread, State.setStatus_of_ne _ hut]
    · have hnodup := hi.lists.nodup .sleep
      rw [hsleep, List.nodup_middle, List.nodup_cons] at hnodup
      have hkept : t ∉ kept := fun hk => hnodup.1 (by simp [hk])
      rw [moved_of_ne (by simp)]
      unfold without
      rw [hsleep, List.erase_append_right _ hkept, List.erase_cons_head]
  · have hcall : wakeupEntry (.node t) k = some (k.setThread t tick) := by
      simp only [wakeupEntry]
      rw [if_neg hzero]
    exact ⟨_, L, kept ++ [t], hcall, htick, hquiet, by simp [hsleep]⟩

/-- A list has no more members than there are threads. -/
theorem Inv.length_le (hi : Inv k L) (h : Head) : (L h).length ≤ k.count := by
  have hsub : L h ⊆ List.range k.count := by
    intro v hv
    exact List.mem_range.mpr (hi.created hv)
  have hlen := ((hi.lists.nodup h).subperm hsub).length_le
  rwa [List.length_range] at hlen

/-- The nodes `rem` are still to be visited. -/
private def Waking (k : State) (L : Head → List Tid) (rem : List Node) (s : State) : Prop :=
  ∃ Ls kept tids, rem = tids.map Cell.node ∧ Evolves k L s Ls ∧ OnlySleepers k s ∧
    Ls .sleep = kept ++ tids

private theorem Waking.start (hi : Inv k L) : Waking k L ((L .sleep).map .node) k :=
  ⟨L, [], L .sleep, rfl, .refl hi, ⟨rfl, rfl, fun _ _ => rfl⟩, rfl⟩

private theorem Waking.step (x : Node) (rem : List Node) (s : State)
    (hw : Waking k L (x :: rem) s) : ∃ s', wakeupEntry x s = some s' ∧ Waking k L rem s' := by
  obtain ⟨Ls, kept, tids, hrem, hev, hquiet, hlist⟩ := hw
  obtain ⟨v, tids', rfl, hx, hrem'⟩ := List.map_eq_cons_iff.mp hrem.symm
  obtain ⟨s', Ls', kept', hbody, hev', hquiet', hlist'⟩ := wakeupEntry_spec hev.inv hlist
  exact ⟨s', hx ▸ hbody, Ls', kept', tids', hrem'.symm, hev.trans hev', hquiet.trans hquiet',
    hlist'⟩

/-- The loop always ends: it visits the sleeping threads once each. -/
theorem schedWakeupSleepThread_fold (hi : Inv k L) : schedWakeupSleepThread k =
    ((L .sleep).map (Cell.node : Tid → Node)).foldlM (fun s x => wakeupEntry x s) k := by
  have hchain : ∀ rem s, Waking k L rem s → Cell.head .sleep ∉ rem ∧
      s.links.Chain (rem ++ [Cell.head .sleep]) := by
    rintro rem s ⟨Ls, kept, tids, rfl, hev, -, hlist⟩
    exact ⟨head_notMem_map _ _, hev.inv.lists.chain_suffix hlist⟩
  have hbody : ∀ x rem s s', Waking k L (x :: rem) s → wakeupEntry x s = some s' →
      Waking k L rem s' := by
    intro x rem s s' hw hs
    obtain ⟨s'', hs'', hw'⟩ := hw.step
    rw [hs] at hs''
    cases hs''
    exact hw'
  have hfuel : ((L .sleep).map (Cell.node : Tid → Node)).length < k.count + 1 := by
    rw [List.length_map]
    exact Nat.lt_succ_of_le (hi.length_le .sleep)
  unfold schedWakeupSleepThread listForEachEntrySafe
  rw [(hi.lists.ring .sleep).next_head]
  exact forEachEntrySafe_eq_foldlM State.links (.head .sleep) wakeupEntry (Waking k L) hchain hbody
    ((L .sleep).map .node) k (k.count + 1) (Waking.start hi) hfuel

theorem schedWakeupSleepThread_spec (hi : Inv k L) :
    ∃ k' L', schedWakeupSleepThread k = some k' ∧ Evolves k L k' L' ∧ OnlySleepers k k' := by
  obtain ⟨k', hfold, Ls, -, -, -, hev, hquiet, -⟩ :=
    foldlM_invariant (f := fun s x => wakeupEntry x s) Waking.step _ k (Waking.start hi)
  exact ⟨k', Ls, (schedWakeupSleepThread_fold hi).trans hfold, hev, hquiet⟩

end PosixRtos.Kernel
