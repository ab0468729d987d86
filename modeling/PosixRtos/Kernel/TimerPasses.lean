import PosixRtos.Kernel.TimerThread

/-! What a step does to the timers, and how the timer thread walks over them: a
timer that exists is visited once a pass, in the order of creation. -/
namespace PosixRtos.Kernel

open PosixRtos.Library.Rings PosixRtos.Library.Runs IntrusiveList

/-- What the step `act` makes of the timers, of the place of the timer thread and
of its passes. -/
inductive TimerMove (board : Board) (s : TimerSystem) :
    TimerAct → Timers → TimerPc → Nat → Prop where
  | timetick : TimerMove board s .timetick s.timers s.pc s.passes
  | env (op : Op) : TimerMove board s (.env op) s.timers s.pc s.passes
  | dispatch (t : Tid) : TimerMove board s (.dispatch t) s.timers s.pc s.passes
  | blocks (hpc : s.pc = .semWait) : TimerMove board s .semWait s.timers .semWait s.passes
  | begins (hpc : s.pc = .semWait) :
      TimerMove board s .semWait s.timers (.visit (s.timers.links.next (.head ()))) s.passes
  | skips {t : TimerId} (hpc : s.pc = .visit (.node t))
      (hquiet : (timerCountdown board s.timers t).2 = false) :
      TimerMove board s .visit (timerCountdown board s.timers t).1
        (.visit (s.timers.links.next (.node t))) s.passes
  | fires {t : TimerId} (hpc : s.pc = .visit (.node t))
      (hfires : (timerCountdown board s.timers t).2 = true) :
      TimerMove board s .visit (timerCountdown board s.timers t).1 (.notify t) s.passes
  | ends (hpc : s.pc = .visit (.head ())) :
      TimerMove board s .visit s.timers .semWait (s.passes + 1)
  | returns {t : TimerId} (hpc : s.pc = .notify t) :
      TimerMove board s .returns (timerReload s.timers t)
        (.visit (s.timers.links.next (.node t))) s.passes
  | create (memory : Itimerspect) :
      TimerMove board s (.create memory) (rawTimerCreate s.timers memory) s.pc s.passes
  | settime (t : TimerId) (value : Itimerspect) :
      TimerMove board s (.settime t value) (s.timers.arm t value) s.pc s.passes

variable {board : Board} {timerSem : Nat} {timerThread : Tid} {s s' s₀ : TimerSystem}
  {act : TimerAct} {timers : Timers} {pc : TimerPc} {passes : Nat} {t u : TimerId}

@[simp] theorem timerCountdown_links (board : Board) (timers : Timers) (t : TimerId) :
    (timerCountdown board timers t).1.links = timers.links := by
  unfold timerCountdown
  dsimp only
  split <;> rfl

@[simp] theorem timerCountdown_count (board : Board) (timers : Timers) (t : TimerId) :
    (timerCountdown board timers t).1.count = timers.count := by
  unfold timerCountdown
  dsimp only
  split <;> rfl

@[simp] theorem timerReload_links (timers : Timers) (t : TimerId) :
    (timerReload timers t).links = timers.links := by
  unfold timerReload
  dsimp only
  split <;> rfl

@[simp] theorem timerReload_count (timers : Timers) (t : TimerId) :
    (timerReload timers t).count = timers.count := by
  unfold timerReload
  dsimp only
  split <;> rfl

theorem timerStep_move (hs : timerStep board timerSem timerThread s act = some s') :
    TimerMove board s act s'.timers s'.pc s'.passes := by
  cases act with
  | timetick =>
    simp only [timerStep, Option.bind_eq_bind, Option.bind_eq_some_iff, Option.some.injEq] at hs
    obtain ⟨u₁, -, u₂, -, rfl⟩ := hs
    exact .timetick
  | semWait =>
    rw [timerStep] at hs
    split at hs
    swap
    · cases hs
    next hcond =>
    obtain ⟨users, -, hs⟩ := Option.bind_eq_some_iff.mp hs
    cases hs
    dsimp only
    split
    · exact .begins hcond.2
    · exact .blocks hcond.2
  | visit =>
    rw [timerStep] at hs
    split at hs
    swap
    · cases hs
    split at hs
    · next t hpc =>
      dsimp only at hs
      split at hs
      · next hfires =>
        cases hs
        exact .fires hpc hfires
      · next hquiet =>
        cases hs
        rw [timerCountdown_links]
        exact .skips hpc (by simpa using hquiet)
    · next hpc =>
      cases hs
      exact .ends hpc
    · cases hs
  | returns =>
    rw [timerStep] at hs
    split at hs
    · next t hpc =>
      split at hs
      · cases hs
        rw [timerReload_links]
        exact .returns hpc
      · cases hs
    · cases hs
  | create memory =>
    cases hs
    exact .create memory
  | settime t value =>
    cases hs
    exact .settime t value
  | env op =>
    obtain ⟨users, -, rfl⟩ := Option.map_eq_some_iff.mp hs
    exact .env op
  | dispatch t =>
    obtain ⟨users, -, rfl⟩ := Option.map_eq_some_iff.mp hs
    exact .dispatch t

/-- Timers are created and never deleted. -/
theorem TimerMove.count_le (hmove : TimerMove board s act timers pc passes) :
    s.timers.count ≤ timers.count := by
  cases hmove with
  | skips => rw [timerCountdown_count]
  | fires => rw [timerCountdown_count]
  | returns => rw [timerReload_count]
  | create => exact Nat.le_succ _
  | _ => exact le_rfl

theorem TimerMove.count_eq (hmove : TimerMove board s act timers pc passes)
    (hact : ∀ memory, act ≠ .create memory) : timers.count = s.timers.count := by
  cases hmove with
  | skips => rw [timerCountdown_count]
  | fires => rw [timerCountdown_count]
  | returns => rw [timerReload_count]
  | create memory => exact absurd rfl (hact memory)
  | _ => rfl

/-! The walk. -/

/-- The timer at which the timer thread is. -/
def TimerPc.timer : TimerPc → Option TimerId
  | .visit (.node t) => some t
  | .notify t => some t
  | _ => none

/-- `timer_list` holds the timers in the order of their creation, and the timer
thread is at one of them. -/
structure TimerWalk (timers : Timers) (pc : TimerPc) : Prop where
  lists : Lists timers.links fun _ => List.range timers.count
  place : ∀ t ∈ pc.timer, t < timers.count

theorem TimerWalk.next_head (hw : TimerWalk timers pc) :
    timers.links.next (.head ()) = if 0 < timers.count then .node 0 else .head () := by
  rw [hw.lists.next_head]
  cases timers.count <;> simp [List.range_succ_eq_map]

theorem TimerWalk.next_node (hw : TimerWalk timers pc) (ht : t < timers.count) :
    timers.links.next (.node t) = if t + 1 < timers.count then .node (t + 1) else .head () := by
  have hring := hw.lists.ring ()
  have hsplit : List.range timers.count =
      (List.range timers.count).take t ++ t :: (List.range timers.count).drop (t + 1) := by
    have hdrop := List.drop_eq_getElem_cons (l := List.range timers.count) (i := t)
      (by simpa using ht)
    rw [List.getElem_range] at hdrop
    rw [← hdrop, List.take_append_drop]
  rw [hsplit, List.map_append, List.map_cons] at hring
  rw [hring.next_member, List.head?_map, List.head?_drop]
  split
  · next hlt => simp [List.getElem?_range hlt]
  · next hge => simp [hge]

theorem TimerWalk.create (hw : TimerWalk timers pc) (memory : Itimerspect) :
    TimerWalk (rawTimerCreate timers memory) pc := by
  have hfresh : ∀ h : Unit, timers.count ∉ (fun _ => List.range timers.count) h := by simp
  refine ⟨?_, fun t ht => (hw.place t ht).trans (Nat.lt_succ_self _)⟩
  have hlists := lists_listInsertTail (lists_listInit hw.lists hfresh) () hfresh
  have hrange : Function.update (fun _ : Unit => List.range timers.count) ()
      (List.range timers.count ++ [timers.count]) = fun _ => List.range (timers.count + 1) := by
    funext h
    rw [List.range_succ]
    exact Function.update_self ..
  rw [hrange] at hlists
  exact hlists

theorem TimerWalk.move (hw : TimerWalk s.timers s.pc)
    (hmove : TimerMove board s act timers pc passes) : TimerWalk timers pc := by
  -- the next node is a timer that exists, or the head
  have hnext : ∀ t < s.timers.count, ∀ u ∈ (TimerPc.visit (s.timers.links.next (.node t))).timer,
      u < s.timers.count := by
    intro t ht u hu
    rw [hw.next_node ht] at hu
    split at hu
    · next hlt =>
      cases hu
      exact hlt
    · cases hu
  cases hmove with
  | timetick => exact hw
  | env => exact hw
  | dispatch => exact hw
  | blocks => exact ⟨hw.lists, fun t ht => by cases ht⟩
  | begins =>
    refine ⟨hw.lists, fun u hu => ?_⟩
    rw [hw.next_head] at hu
    split at hu
    · next hlt =>
      cases hu
      exact hlt
    · cases hu
  | @skips t hpc =>
    have ht : t < s.timers.count := hw.place t (by simp [hpc, TimerPc.timer])
    refine ⟨by simpa using hw.lists, fun u hu => ?_⟩
    rw [timerCountdown_count]
    exact hnext t ht u hu
  | @fires t hpc =>
    have ht : t < s.timers.count := hw.place t (by simp [hpc, TimerPc.timer])
    refine ⟨by simpa using hw.lists, fun u hu => ?_⟩
    cases hu
    rw [timerCountdown_count]
    exact ht
  | ends => exact ⟨hw.lists, fun t ht => by cases ht⟩
  | @returns t hpc =>
    have ht : t < s.timers.count := hw.place t (by simp [hpc, TimerPc.timer])
    refine ⟨by simpa using hw.lists, fun u hu => ?_⟩
    rw [timerReload_count]
    exact hnext t ht u hu
  | create memory => exact hw.create memory
  | settime => exact ⟨hw.lists, hw.place⟩

theorem TimerSystem.Initial.walk (hinit : s₀.Initial board timerSem) :
    TimerWalk s₀.timers s₀.pc := by
  refine ⟨⟨fun _ => ?_, fun _ => List.nodup_range, fun _ _ => rfl⟩, fun t ht => ?_⟩
  · rw [hinit.count]
    exact hinit.list
  · rw [hinit.pc] at ht
    cases ht

/-- The current pass has come to the timer `t`. -/
def TimerPc.Past (t : TimerId) : TimerPc → Prop
  | .semWait => False
  | .visit (.head _) => True
  | .visit (.node u) => t < u
  | .notify u => t ≤ u

instance (t : TimerId) : ∀ pc, Decidable (TimerPc.Past t pc)
  | .semWait => inferInstanceAs (Decidable False)
  | .visit (.head _) => inferInstanceAs (Decidable True)
  | .visit (.node u) => inferInstanceAs (Decidable (t < u))
  | .notify u => inferInstanceAs (Decidable (t ≤ u))

/-- The passes that have come to the timer `t`, since the timer thread began. -/
def passesOver (t : TimerId) (pc : TimerPc) (passes : Nat) : Nat :=
  passes + if pc.Past t then 1 else 0

/-- The act is the visit of the timer `t`. -/
def TimerSystem.Visits (s : TimerSystem) (t : TimerId) : TimerAct → Prop
  | .visit => s.pc = .visit (.node t)
  | _ => False

instance (s : TimerSystem) (t : TimerId) : ∀ act, Decidable (s.Visits t act)
  | .visit => inferInstanceAs (Decidable (s.pc = .visit (.node t)))
  | .timetick | .semWait | .returns | .create _ | .settime _ _ | .env _ | .dispatch _ =>
      inferInstanceAs (Decidable False)

@[simp] theorem past_semWait : ¬ TimerPc.semWait.Past t := id

@[simp] theorem past_visit_head : (TimerPc.visit (.head ())).Past t := trivial

@[simp] theorem past_visit_node : (TimerPc.visit (.node u)).Past t ↔ t < u := Iff.rfl

@[simp] theorem past_notify : (TimerPc.notify u).Past t ↔ t ≤ u := Iff.rfl

theorem ite_le_eq_add (t u : Nat) : (if t ≤ u then 1 else 0) =
    (if t < u then 1 else 0) + if u = t then 1 else 0 := by
  split <;> split <;> split <;> omega

theorem TimerWalk.past_next (hw : TimerWalk timers pc) (ht : t < timers.count)
    (hu : u < timers.count) :
    (TimerPc.visit (timers.links.next (.node u))).Past t ↔ t ≤ u := by
  rw [hw.next_node hu]
  split
  · exact Nat.lt_succ_iff
  · next hlast =>
    refine iff_of_true trivial ?_
    exact Nat.le_of_lt_succ (lt_of_lt_of_le ht (not_lt.mp hlast))

/-- A pass comes to a timer by visiting it. -/
theorem TimerWalk.passesOver_move (hw : TimerWalk s.timers s.pc) (ht : t < s.timers.count)
    (hmove : TimerMove board s act timers pc passes) :
    passesOver t pc passes =
      passesOver t s.pc s.passes + if s.Visits t act then 1 else 0 := by
  have hplace := hw.place
  unfold passesOver
  cases hmove with
  | timetick => simp [TimerSystem.Visits]
  | env => simp [TimerSystem.Visits]
  | dispatch => simp [TimerSystem.Visits]
  | create => simp [TimerSystem.Visits]
  | settime => simp [TimerSystem.Visits]
  | blocks hpc => simp [TimerSystem.Visits, hpc]
  | begins hpc =>
    have hpos : 0 < s.timers.count := Nat.zero_lt_of_lt ht
    rw [hw.next_head, if_pos hpos, hpc]
    simp [TimerSystem.Visits]
  | @skips u hpc =>
    have hu : u < s.timers.count := hplace u (by simp [hpc, TimerPc.timer])
    simp only [hw.past_next ht hu, TimerSystem.Visits, hpc, past_visit_node,
      TimerPc.visit.injEq, Cell.node.injEq]
    rw [ite_le_eq_add, Nat.add_assoc]
  | @fires u hpc =>
    simp only [TimerSystem.Visits, hpc, past_visit_node, past_notify, TimerPc.visit.injEq,
      Cell.node.injEq]
    rw [ite_le_eq_add, Nat.add_assoc]
  | ends hpc => simp [TimerSystem.Visits, hpc]
  | @returns u hpc =>
    have hu : u < s.timers.count := hplace u (by simp [hpc, TimerPc.timer])
    simp [hw.past_next ht hu, TimerSystem.Visits, hpc]

end PosixRtos.Kernel
