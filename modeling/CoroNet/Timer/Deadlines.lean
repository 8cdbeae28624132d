import CoroNet.Timer.Alarm
import CoroNet.Timer.Firing

namespace CoroNet.Timers

open Function Transition

/-- A queue together with the deadlines of its timers, by allocation, as
numbers without a bound. -/
structure Schedule where
  world : World := start
  due : Nat → Int := fun _ => 0

/-- The deadline of a timer that the batch in progress puts back. -/
def World.putBack (w : World) (b : Nat) : Option Int :=
  match w.activation, w.heap b with
  | .batch now expired _ _, some cell =>
    if b ∈ expired.map TimerPtr.block ∧ cell.timer.repeat_ = true ∧ cell.timer.sequence ∉ w.cancelingSeqs then
      some (now + cell.timer.interval)
    else none
  | _, _ => none

def Schedule.record (s : Schedule) (w : World) : Act → Schedule
  | .add _ delay now _ _ => ⟨w, update s.due s.world.blocks (now + delay)⟩
  | .addPeriodic _ interval now _ _ => ⟨w, update s.due s.world.blocks (now + interval)⟩
  | .finish _ => ⟨w, fun b => (s.world.putBack b).getD (s.due b)⟩
  | _ => { s with world := w }

def Schedule.step (s : Schedule) (a : Act) : Option Schedule :=
  (Timers.step s.world a).map fun w => s.record w a

/-- The clock shows 64-bit values; so are the delays, and none is negative. -/
def Act.ranged : Act → Bool
  | .fire now | .cancel _ now | .expire _ now | .finish now => fits64 now
  | .add _ delay now now' _ | .addPeriodic _ delay now now' _ =>
    fits64 now && fits64 now' && fits64 delay && decide (0 ≤ delay)
  | .call | .ret _ | .destroy => true

/-- The action creates a timer. -/
def Act.Adds (a : Act) (delay now now' : Int) : Prop :=
  ∃ callback addr, a = .add callback delay now now' addr ∨ a = .addPeriodic callback delay now now' addr

/-- The step forms the sum of a clock reading and a delay or an interval. -/
def Schedule.Forms (s : Schedule) : Act → Int → Prop
  | .add _ delay now _ _, sum | .addPeriodic _ delay now _ _, sum => sum = now + delay
  | .finish _, sum => ∃ b, s.world.putBack b = some sum
  | _, _ => False

/-- The sums that the step forms are 64-bit values. -/
def Schedule.Exact (s : Schedule) (a : Act) : Prop := ∀ sum, s.Forms a sum → fits64 sum = true

/-- The deadlines of the queued timers are 64-bit values. -/
def Schedule.Fits (s : Schedule) : Prop := ∀ e ∈ s.world.timers, fits64 (s.due e.timer.block) = true

theorem fits64_bounds {x : Int} (fits : fits64 x = true) : -2 ^ 63 ≤ x ∧ x < 2 ^ 63 := of_decide_eq_true fits

theorem Act.Adds.bounds {a : Act} {delay now now' : Int} (adds : a.Adds delay now now') (ranged : a.ranged = true) :
    now < 2 ^ 63 ∧ now' < 2 ^ 63 ∧ 0 ≤ delay ∧ delay < 2 ^ 63 := by
  have fits : fits64 now = true ∧ fits64 now' = true ∧ fits64 delay = true ∧ 0 ≤ delay := by
    obtain ⟨callback, addr, rfl | rfl⟩ := adds
    · simpa [Act.ranged, and_assoc] using ranged
    · simpa [Act.ranged, and_assoc] using ranged
  obtain ⟨clock, clock', wide, positive⟩ := fits
  exact ⟨(fits64_bounds clock).2, (fits64_bounds clock').2, positive, (fits64_bounds wide).2⟩

@[simp] theorem Schedule.record_world (s : Schedule) (w : World) (a : Act) : (s.record w a).world = w := by
  cases a <;> rfl

theorem Schedule.step_record {s s' : Schedule} {a : Act} (move : s.step a = some s') :
    Timers.step s.world a = some s'.world ∧ s' = s.record s'.world a := by
  obtain ⟨w, done, rfl⟩ := Option.map_eq_some_iff.mp move
  rw [Schedule.record_world]
  exact ⟨done, rfl⟩

theorem World.putBack_iff {w : World} {now sum : Int} {expired rest : List TimerPtr} {running : Bool} {b : Nat}
    (control : w.activation = .batch now expired rest running) :
    w.putBack b = some sum ↔ ∃ c, w.heap b = some c ∧ b ∈ expired.map TimerPtr.block ∧ c.timer.repeat_ = true ∧
      c.timer.sequence ∉ w.cancelingSeqs ∧ now + c.timer.interval = sum := by
  unfold putBack
  rw [control]
  cases w.heap b with
  | none => simp
  | some c => simp [and_assoc]

/-- The timers that the second loop of `handleExpired` leaves queued. -/
theorem Reinserted.queued {now : Int} {batch : List TimerPtr} {w w' : World} (loop : Reinserted now batch w w')
    (owned : Owned batch w) (owned' : Owned [] w') {e : Entry} (member : e ∈ w'.timers) :
    (e ∈ w.timers ∧ e.timer.block ∉ batch.map TimerPtr.block) ∨
      ∃ c, w.Points e.timer c ∧ e.timer ∈ batch ∧ c.timer.repeat_ = true ∧ c.timer.sequence ∉ w.cancelingSeqs ∧
        e.time = wrap64 (now + c.timer.interval) := by
  obtain ⟨outside, inside⟩ := loop.heap owned
  obtain ⟨c', here, time⟩ := owned'.entry e member
  by_cases popped : e.timer.block ∈ batch.map TimerPtr.block
  · obtain ⟨t, called, same⟩ := List.mem_map.mp popped
    obtain ⟨⟨c, live⟩, _⟩ := owned.batch t called
    have left := inside t called c live
    rw [same, here.1] at left
    by_cases again : c.timer.repeat_ = true ∧ c.timer.sequence ∉ w.cancelingSeqs
    · rw [if_pos again, Option.some.injEq] at left
      subst left
      have timer : e.timer = t := by
        rw [here.ptr, ← same]
      exact Or.inr ⟨c, timer ▸ live, timer ▸ called, again.1, again.2, time.symm⟩
    · rw [if_neg again] at left
      exact absurd left (Option.some_ne_none _)
  · have live : w.Points e.timer c' := ⟨(outside _ popped).symm.trans here.1, here.2⟩
    have queued := (owned.owner _ _ live.1).resolve_right fun called =>
      popped (List.mem_map.mpr ⟨_, called, rfl⟩)
    rw [← live.ptr, time] at queued
    exact Or.inl ⟨queued, popped⟩

/-- A timer that is queued after a step was queued before, under the same
deadline, or its deadline is a sum that the step forms. -/
theorem Schedule.step_queued {s s' : Schedule} {a : Act} (inv : Inv s.world) (move : s.step a = some s') {e : Entry}
    (member : e ∈ s'.world.timers) :
    (e ∈ s.world.timers ∧ s'.due e.timer.block = s.due e.timer.block) ∨
      (s.Forms a (s'.due e.timer.block) ∧ e.time = wrap64 (s'.due e.timer.block)) := by
  obtain ⟨move, same⟩ := Schedule.step_record move
  have move := step_move inv move
  rw [same]
  generalize s'.world = w at move member
  cases move with
  | @insert _ callback _ _ interval _ _ kind _ free =>
    obtain ⟨_, _, _, frame⟩ := s.world.insertNew_frame _ _ _ _ _ _
    rw [frame] at member
    have member : e ∈ (s.world.link callback _ interval _ _).timers := member
    rcases (inv.owned.link_mem free).mp member with rfl | queued
    · refine Or.inr ?_
      rcases kind with ⟨rfl, -⟩ | ⟨rfl, -⟩
      · simp [Schedule.record, Schedule.Forms]
      · simp [Schedule.record, Schedule.Forms]
    · obtain ⟨c, live, -⟩ := inv.owned.entry e queued
      have other : e.timer.block ≠ s.world.blocks := (inv.owned.live _ _ live.1).1.ne
      refine Or.inl ⟨queued, ?_⟩
      rcases kind with ⟨rfl, -⟩ | ⟨rfl, -⟩
      · exact update_of_ne other _ _
      · exact update_of_ne other _ _
  | missed =>
    split at member
    · exact Or.inl ⟨member, rfl⟩
    · exact Or.inl ⟨member, rfl⟩
  | @removed id _ _ _ _ _ _ _ live =>
    obtain ⟨_, _, _, frame⟩ := s.world.removed_frame _ _ _ _
    rw [frame] at member
    exact Or.inl ⟨((inv.owned.unlink_mem (s := id.seq) live).mp member).1, rfl⟩
  | expire => exact Or.inl ⟨World.mem_timers.mpr (Or.inr member), rfl⟩
  | @finish now _ expired w' control _ loop owned' =>
    obtain ⟨_, _, _, frame⟩ := World.rearm_frame { w' with cancelingSeqs := [], activation := .idle } _
    rw [frame] at member
    have owned := inv.owned
    rw [control] at owned
    have owned : Owned expired { s.world with callingExpired := false } := owned.congr rfl rfl rfl rfl rfl rfl
    rcases loop.queued owned owned' member with ⟨queued, apart⟩ | ⟨c, live, called, again, absent, time⟩
    · refine Or.inl ⟨queued, ?_⟩
      have none_put : s.world.putBack e.timer.block = none := by
        refine Option.eq_none_iff_forall_ne_some.mpr fun sum put => ?_
        obtain ⟨_, _, member, _⟩ := (World.putBack_iff control).mp put
        exact apart member
      simp [Schedule.record, none_put]
    · have put : s.world.putBack e.timer.block = some (now + c.timer.interval) :=
        (World.putBack_iff control).mpr ⟨c, live.1, List.mem_map.mpr ⟨_, called, rfl⟩, again, absent, rfl⟩
      refine Or.inr ⟨⟨e.timer.block, ?_⟩, ?_⟩
      · simp [Schedule.record, put]
      · simp [Schedule.record, put, time]
  | destroy => exact absurd member (KeyedSet.notMem_empty e)
  | _ => exact Or.inl ⟨member, rfl⟩

/-- What holds while the clock and the delays stay within 64 bits: a timer is
queued under what 64 bits hold of its deadline. -/
structure Tracks (s : Schedule) : Prop where
  inv : Inv s.world
  clock : 0 ≤ s.world.clock
  interval : ∀ b c, s.world.heap b = some c → 0 ≤ c.timer.interval ∧ c.timer.interval < 2 ^ 63
  batch : ∀ now expired rest running, s.world.activation = .batch now expired rest running → 0 ≤ now ∧ now < 2 ^ 63
  queued : ∀ e ∈ s.world.timers, e.time = wrap64 (s.due e.timer.block) ∧
    0 ≤ s.due e.timer.block ∧ s.due e.timer.block < 2 ^ 64

theorem Tracks.start : Tracks {} where
  inv := .start
  clock := le_rfl
  interval := fun _ c live => absurd live.symm (Option.some_ne_none c)
  batch := fun _ _ _ _ control => Activation.noConfusion control
  queued := fun e member => absurd member (KeyedSet.notMem_empty e)

theorem Reinserted.interval {now : Int} {batch : List TimerPtr} {w w' : World} (loop : Reinserted now batch w w')
    (owned : Owned batch w) {b : Nat} {c' : Cell} (live' : w'.heap b = some c') :
    ∃ c, w.heap b = some c ∧ c'.timer.interval = c.timer.interval := by
  obtain ⟨outside, inside⟩ := loop.heap owned
  by_cases popped : b ∈ batch.map TimerPtr.block
  · obtain ⟨t, called, rfl⟩ := List.mem_map.mp popped
    obtain ⟨⟨c, live⟩, _⟩ := owned.batch t called
    rw [inside t called c live, Option.ite_none_right_eq_some, Option.some.injEq] at live'
    obtain ⟨_, rfl⟩ := live'
    exact ⟨c, live.1, rfl⟩
  · exact ⟨c', (outside b popped).symm.trans live', rfl⟩

/-- The sums are those of a clock reading and a delay. -/
theorem Tracks.forms {s s' : Schedule} {a : Act} {sum : Int} (tracks : Tracks s) (ranged : a.ranged = true)
    (move : s.step a = some s') (forms : s.Forms a sum) : 0 ≤ sum ∧ sum < 2 ^ 64 := by
  have clock := tracks.clock
  have move := step_move tracks.inv (Schedule.step_record move).1
  generalize s'.world = w at move
  cases move with
  | @insert _ callback addr delay _ now now' kind _ _ late =>
    have adds : a.Adds delay now now' := ⟨callback, addr, kind.imp And.left And.left⟩
    have bounds := adds.bounds ranged
    have same : sum = now + delay := by
      rcases kind with ⟨rfl, -⟩ | ⟨rfl, -⟩
      · exact forms
      · exact forms
    omega
  | finish control =>
    obtain ⟨b, put⟩ := forms
    obtain ⟨c, live, _, _, _, rfl⟩ := (World.putBack_iff control).mp put
    have := tracks.batch _ _ _ _ control
    have := tracks.interval b c live
    omega
  | _ => cases forms

theorem Move.batch_now {w w' : World} {a : Act} {now : Int} {expired rest : List TimerPtr} {running : Bool}
    (move : Move w a w') (control : w'.activation = .batch now expired rest running) :
    (∃ expired rest running, w.activation = .batch now expired rest running) ∨
      (w.clock ≤ now ∧ ∃ completed, a = .expire completed now) := by
  cases move with
  | insert =>
    obtain ⟨_, _, _, same⟩ := w.insertNew_frame _ _ _ _ _ _
    rw [same] at control
    exact Or.inl ⟨_, _, _, control⟩
  | missed =>
    split at control
    · exact Or.inl ⟨_, _, _, control⟩
    · exact Or.inl ⟨_, _, _, control⟩
  | removed =>
    obtain ⟨_, _, _, same⟩ := w.removed_frame _ _ _ _
    rw [same] at control
    exact Or.inl ⟨_, _, _, control⟩
  | expire _ late =>
    cases control
    exact Or.inr ⟨late, _, rfl⟩
  | call before =>
    cases control
    exact Or.inl ⟨_, _, _, before⟩
  | ret before =>
    cases control
    exact Or.inl ⟨_, _, _, before⟩
  | finish =>
    obtain ⟨_, _, _, same⟩ := World.rearm_frame _ _
    rw [same] at control
    cases control
  | destroy => cases control
  | _ => exact Or.inl ⟨_, _, _, control⟩

/-- A live timer has the interval it was created with. -/
theorem Move.interval {w w' : World} {a : Act} {b : Nat} {c' : Cell} (inv : Inv w) (move : Move w a w')
    (live' : w'.heap b = some c') :
    (∃ c, w.heap b = some c ∧ c'.timer.interval = c.timer.interval) ∨ c'.timer.interval = 0 ∨
      ∃ callback now now' addr, a = .addPeriodic callback c'.timer.interval now now' addr := by
  cases move with
  | insert kind =>
    obtain ⟨_, _, _, same⟩ := w.insertNew_frame _ _ _ _ _ _
    rw [same] at live'
    rcases World.link_heap live' with ⟨rfl, rfl⟩ | ⟨_, live⟩
    · rcases kind with ⟨rfl, rfl⟩ | ⟨rfl, rfl⟩
      · exact Or.inr (Or.inl rfl)
      · exact Or.inr (Or.inr ⟨_, _, _, _, rfl⟩)
    · exact Or.inl ⟨c', live, rfl⟩
  | missed =>
    split at live'
    · exact Or.inl ⟨c', live', rfl⟩
    · exact Or.inl ⟨c', live', rfl⟩
  | removed =>
    obtain ⟨_, _, _, same⟩ := w.removed_frame _ _ _ _
    rw [same] at live'
    exact Or.inl ⟨c', (World.delete_heap live').2, rfl⟩
  | finish control _ loop =>
    obtain ⟨_, _, _, same⟩ := World.rearm_frame _ _
    rw [same] at live'
    have owned := inv.owned
    rw [control] at owned
    exact Or.inl (loop.interval (owned.congr rfl rfl rfl rfl rfl rfl) live')
  | destroy idle => exact absurd live'.symm (by simp [(inv.destroy idle).destroyed rfl b])
  | _ => exact Or.inl ⟨c', live', rfl⟩

theorem Tracks.step {s s' : Schedule} {a : Act} (tracks : Tracks s) (ranged : a.ranged = true)
    (move : s.step a = some s') : Tracks s' := by
  have step := step_move tracks.inv (Schedule.step_record move).1
  refine ⟨step.inv tracks.inv, tracks.clock.trans step.clock, fun b c live => ?_, ?_, fun e member => ?_⟩
  · rcases step.interval tracks.inv live with ⟨old, before, same⟩ | once | ⟨callback, now, now', addr, rfl⟩
    · rw [same]
      exact tracks.interval b old before
    · rw [once]
      omega
    · have adds : (Act.addPeriodic callback c.timer.interval now now' addr).Adds _ now now' := ⟨_, _, Or.inr rfl⟩
      exact (adds.bounds ranged).2.2
  · intro now expired rest running control
    rcases step.batch_now control with ⟨_, _, _, before⟩ | ⟨late, completed, rfl⟩
    · exact tracks.batch _ _ _ _ before
    · exact ⟨tracks.clock.trans late, (fits64_bounds ranged).2⟩
  · rcases Schedule.step_queued tracks.inv move member with ⟨queued, same⟩ | ⟨forms, time⟩
    · rw [same]
      exact tracks.queued e queued
    · exact ⟨time, tracks.forms ranged move forms⟩

theorem Schedule.Fits.step {s s' : Schedule} {a : Act} (fits : s.Fits) (inv : Inv s.world) (exact : s.Exact a)
    (move : s.step a = some s') : s'.Fits := by
  intro e member
  rcases Schedule.step_queued inv move member with ⟨queued, same⟩ | ⟨forms, -⟩
  · rw [same]
    exact fits e queued
  · exact exact _ forms

/-- A deadline that does not fit puts the timer before the start of the clock. -/
theorem Tracks.time {s : Schedule} (tracks : Tracks s) {e : Entry} (queued : e ∈ s.world.timers) :
    (fits64 (s.due e.timer.block) = true ∧ e.time = s.due e.timer.block) ∨
      (fits64 (s.due e.timer.block) = false ∧ 2 ^ 63 ≤ s.due e.timer.block ∧
        e.time = s.due e.timer.block - 2 ^ 64 ∧ e.time < 0) := by
  obtain ⟨time, positive, bound⟩ := tracks.queued e queued
  rcases Bool.eq_false_or_eq_true (fits64 (s.due e.timer.block)) with fits | large
  · exact Or.inl ⟨fits, time.trans (wrap64_of_fits fits)⟩
  · have above : 2 ^ 63 ≤ s.due e.timer.block := by
      have := of_decide_eq_false large
      omega
    have wrapped := time.trans (wrap64_of_large above bound)
    exact Or.inr ⟨large, above, wrapped, by omega⟩

/-- A batch pops no timer before its deadline just when all deadlines fit. -/
theorem Tracks.pops_iff {s s' : Schedule} {completed : Bool} {now : Int} (tracks : Tracks s) (ranged : fits64 now = true)
    (move : s.step (.expire completed now) = some s') :
    (∀ t ∈ s'.world.activation.expired, s.due t.block ≤ now) ↔ s.Fits := by
  have expired : s'.world.activation.expired = (s.world.due now).map Entry.timer ∧ s.world.clock ≤ now := by
    have move := step_move tracks.inv (Schedule.step_record move).1
    generalize s'.world = w at move ⊢
    cases move with
    | insert kind => rcases kind with ⟨other, _⟩ | ⟨other, _⟩ <;> cases other
    | expire _ late => exact ⟨rfl, late⟩
  have clock := tracks.clock.trans expired.2
  rw [expired.1]
  constructor
  · intro punctual e queued
    rcases tracks.time queued with ⟨fits, -⟩ | ⟨-, above, -, early⟩
    · exact fits
    · have due : e ∈ s.world.due now := (World.mem_timers.mp queued).resolve_right fun left => by
        have := World.later_lt left
        omega
      have := punctual _ (List.mem_map_of_mem due)
      have := (fits64_bounds ranged).2
      omega
  · intro fits t member
    obtain ⟨e, due, rfl⟩ := List.mem_map.mp member
    have queued : e ∈ s.world.timers := World.mem_timers.mpr (Or.inl due)
    have early := World.due_le due
    rcases tracks.time queued with ⟨-, same⟩ | ⟨large, -⟩
    · omega
    · exact absurd (fits e queued) (by simp [large])

/-- The earliest deadline is found to be the earliest just when it does not
fit, or all others do as well. -/
theorem Tracks.newTop_iff {s : Schedule} {sum : Int} (tracks : Tracks s) (positive : 0 ≤ sum) (bound : sum < 2 ^ 64)
    (earliest : ∀ e ∈ s.world.timers, sum < s.due e.timer.block) :
    s.world.NewTop (wrap64 sum) ↔ (fits64 sum = true → s.Fits) := by
  constructor
  · intro top fits e queued
    obtain ⟨first, front⟩ := KeyedSet.first?_isSome queued
    have below := top first front
    have least := World.first_le front queued
    rw [wrap64_of_fits fits] at below
    rcases tracks.time queued with ⟨other, -⟩ | ⟨-, -, -, early⟩
    · exact other
    · omega
  · intro fits e front
    have queued := KeyedSet.first?_mem front
    have later := earliest e queued
    rcases tracks.time queued with ⟨other, same⟩ | ⟨large, -, wrapped, -⟩
    · have within : fits64 sum = true := by
        have := fits64_bounds other
        exact decide_eq_true ⟨by omega, by omega⟩
      rw [wrap64_of_fits within]
      omega
    · have wide : ¬ fits64 sum = true := fun within => absurd (fits within e queued) (by simp [large])
      have above : 2 ^ 63 ≤ sum := by
        have := of_decide_eq_false (Bool.not_eq_true _ ▸ wide)
        omega
      rw [wrap64_of_large above bound]
      omega

/-- The timerfd after an add, and what decides whether it is set. -/
theorem Tracks.rearms {s s' : Schedule} {a : Act} {delay now now' : Int} (tracks : Tracks s)
    (adds : a.Adds delay now now') (ranged : a.ranged = true) (move : s.step a = some s') :
    (s.world.NewTop (wrap64 (now + delay)) ∧
      s'.world.fd = { s.world.fd with alarm := some (max (now + delay) (now' + 1)), armedAt := now' }) ∨
    (¬ s.world.NewTop (wrap64 (now + delay)) ∧ s'.world.fd = s.world.fd) := by
  have bounds := adds.bounds ranged
  obtain ⟨callback, addr, interval, late, later, new⟩ : ∃ callback addr interval, s.world.clock ≤ now ∧ now ≤ now' ∧
      s'.world = s.world.insertNew callback delay interval now now' addr := by
    have move := step_move tracks.inv (Schedule.step_record move).1
    generalize s'.world = w at move ⊢
    obtain ⟨callback, addr, rfl | rfl⟩ := adds
    · cases move with
      | insert kind _ _ late later => rcases kind with ⟨⟨⟩, rfl⟩ | ⟨⟨⟩, _⟩; exact ⟨_, _, _, late, later, rfl⟩
    · cases move with
      | insert kind _ _ late later => rcases kind with ⟨⟨⟩, _⟩ | ⟨⟨⟩, rfl⟩; exact ⟨_, _, _, late, later, rfl⟩
  have clock := tracks.clock.trans late
  have left : wrap64 (wrap64 (now + delay) - now') = now + delay - now' := by
    rw [wrap64_sub]
    exact wrap64_of_fits (decide_eq_true ⟨by omega, by omega⟩)
  rw [new]
  rcases s.world.insertNew_eq callback delay interval now now' addr with ⟨top, same⟩ | ⟨below, same⟩
  · refine Or.inl ⟨top, ?_⟩
    rw [same, World.resetTimerfd_alarm left]
    rfl
  · refine Or.inr ⟨below, ?_⟩
    rw [same]
    rfl

theorem run_tracks {acts : List Act} {s : Schedule}
    (reach : RunWhile Schedule.step (fun _ a => a.ranged = true) {} acts s) : Tracks s :=
  reach.invariant Tracks.start fun tracks ranged move => tracks.step ranged move

/-- As long as every sum that a step forms is a 64-bit value, the deadlines
of the queued timers are. -/
theorem run_fits {acts : List Act} {s : Schedule}
    (reach : RunWhile Schedule.step (fun s a => a.ranged = true ∧ s.Exact a) {} acts s) : Tracks s ∧ s.Fits := by
  have start : Tracks {} ∧ Schedule.Fits {} := ⟨.start, fun e member => absurd member (KeyedSet.notMem_empty e)⟩
  refine RunWhile.invariant (P := fun s => Tracks s ∧ s.Fits) reach start ?_
  rintro s a s' ⟨tracks, fits⟩ ⟨ranged, exact⟩ move
  exact ⟨tracks.step ranged move, fits.step tracks.inv exact move⟩

/-- In every state: `handleExpired` pops no timer before its deadline if and
only if the deadlines of all queued timers are 64-bit values; an add of a timer
with the earliest deadline sets the alarm for it if these are, or its own is
not, and otherwise leaves the alarm as it was. All of them are as long as every
sum of a clock reading and a delay or an interval is. -/
theorem deadlines_kept_iff {acts : List Act} {s : Schedule}
    (reach : RunWhile Schedule.step (fun _ a => a.ranged = true) {} acts s) :
    (∀ completed now s', fits64 now = true → s.step (.expire completed now) = some s' →
      ((∀ t ∈ s'.world.activation.expired, s.due t.block ≤ now) ↔ s.Fits)) ∧
    (∀ a delay now now' s', a.Adds delay now now' → a.ranged = true → s.step a = some s' →
      (∀ e ∈ s.world.timers, now + delay < s.due e.timer.block) →
      ((fits64 (now + delay) = true → s.Fits) →
        s'.world.fd = { s.world.fd with alarm := some (max (now + delay) (now' + 1)), armedAt := now' }) ∧
      (¬ (fits64 (now + delay) = true → s.Fits) → s'.world.fd = s.world.fd)) ∧
    (RunWhile Schedule.step (fun s a => a.ranged = true ∧ s.Exact a) {} acts s → s.Fits) := by
  have tracks := run_tracks reach
  refine ⟨fun completed now s' ranged move => tracks.pops_iff ranged move, ?_, fun exact => (run_fits exact).2⟩
  intro a delay now now' s' adds ranged move earliest
  have forms : s.Forms a (now + delay) := by
    obtain ⟨callback, addr, rfl | rfl⟩ := adds
    · rfl
    · rfl
  obtain ⟨positive, bound⟩ := tracks.forms ranged move forms
  have top := tracks.newTop_iff positive bound earliest
  rcases tracks.rearms adds ranged move with ⟨new, armed⟩ | ⟨old, same⟩
  · exact ⟨fun _ => armed, fun other => absurd (top.mp new) other⟩
  · exact ⟨fun fits => absurd (top.mpr fits) old, fun _ => same⟩

/-- A periodic timer that has been put back, and a second timer before it. -/
def restarted : List Act :=
  [.addPeriodic 1 5 0 0 16, .expire false 6, .call, .ret false, .finish 7, .add 2 3 7 7 32]

theorem restarted_kept : ∃ s s', RunWhile Schedule.step (fun _ a => a.ranged = true) {} restarted s ∧
    s.step (.expire false 10) = some s' ∧ s'.world.activation.expired = [⟨32, 1⟩] ∧
    ∀ t ∈ s'.world.activation.expired, s.due t.block ≤ 10 := by
  have reach : RunWhile Schedule.step (fun _ a => a.ranged = true) {} restarted
      (after Schedule.step {} restarted) := guarded_run (run_eq_some rfl)
  have fits : (after Schedule.step {} restarted).Fits := by
    have all : ∀ e ∈ (after Schedule.step {} restarted).world.timers.elems,
        fits64 ((after Schedule.step {} restarted).due e.timer.block) = true := by decide +kernel
    exact all
  have expire : (after Schedule.step {} restarted).step (.expire false 10) =
      some (after Schedule.step {} (restarted ++ [.expire false 10])) := rfl
  refine ⟨_, _, reach, expire, by decide +kernel, ?_⟩
  exact ((deadlines_kept_iff reach).1 false 10 _ (by decide) expire).mpr fits

/-- A timer with the longest delay is added while a completion waits. -/
def longest : List Act := [.add 1 5 0 0 16, .fire 5, .add 2 (2 ^ 63 - 1) 6 6 32]

/-- The timer with the longest delay is popped at once; and behind it a timer
that is due in 5 ns does not set the alarm. -/
theorem longest_delay_wraps :
    (∃ s s', RunWhile Schedule.step (fun _ a => a.ranged = true) {} longest s ∧
      s.step (.expire true 7) = some s' ∧ ⟨32, 1⟩ ∈ s'.world.activation.expired ∧ s.due 1 = 6 + (2 ^ 63 - 1)) ∧
    ∃ s s', RunWhile Schedule.step (fun _ a => a.ranged = true) {} [.add 2 (2 ^ 63 - 1) 1 1 32] s ∧
      s.step (.add 1 5 2 2 16) = some s' ∧ (∀ e ∈ s.world.timers, 2 + 5 < s.due e.timer.block) ∧
      s.world.fd.alarm = some (2 ^ 63) ∧ s'.world.fd.alarm = some (2 ^ 63) := by
  constructor
  · refine ⟨after Schedule.step {} longest, after Schedule.step {} (longest ++ [.expire true 7]),
      guarded_run (run_eq_some rfl), rfl, by decide +kernel, by decide +kernel⟩
  · refine ⟨after Schedule.step {} [.add 2 (2 ^ 63 - 1) 1 1 32],
      after Schedule.step {} [.add 2 (2 ^ 63 - 1) 1 1 32, .add 1 5 2 2 16],
      guarded_run (run_eq_some rfl), rfl, ?_, by decide +kernel, by decide +kernel⟩
    have all : ∀ e ∈ (after Schedule.step {} [.add 2 (2 ^ 63 - 1) 1 1 32]).world.timers.elems,
        2 + 5 < (after Schedule.step {} [.add 2 (2 ^ 63 - 1) 1 1 32]).due e.timer.block := by decide +kernel
    exact all

end CoroNet.Timers
