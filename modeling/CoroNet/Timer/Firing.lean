import CoroNet.Timer.Lifetime

namespace CoroNet.Timers

open Function Transition

/-- What the creator of a timer asked for: the time of the first call, as a
number without a bound, and the interval. -/
structure Request where
  due : Int := 0
  interval : Int := 0

/-- A `handleExpired`: the clock it sampled, the entries of `timers_` and the
number of timers created until then. -/
structure Batch where
  number : Nat := 0
  now : Int := 0
  pending : List Entry := []
  blocks : Nat := 0

/-- A started callback: its timer, by allocation, the batch that calls it, and
the timer's expiration. -/
structure Firing where
  block : Nat
  batch : Batch
  expiration : Int

/-- A queue together with the requests made, the batch in progress or the last
one, and the callbacks started so far. -/
structure History where
  world : World := start
  requests : Nat → Request := fun _ => {}
  batch : Batch := {}
  log : List Firing := []

/-- The callback that the next `call` starts. -/
def World.firing (w : World) (batch : Batch) : List Firing :=
  match w.activation with
  | .batch _ _ (t :: _) false =>
    match w.deref t with
    | .ok timer => [⟨t.block, batch, timer.expiration⟩]
    | .error _ => []
  | _ => []

def History.record (h : History) (w : World) : Act → History
  | .add _ delay now _ _ => { h with world := w, requests := update h.requests h.world.blocks ⟨now + delay, 0⟩ }
  | .addPeriodic _ interval now _ _ =>
    { h with world := w, requests := update h.requests h.world.blocks ⟨now + interval, interval⟩ }
  | .expire _ now =>
    { h with world := w, batch := ⟨h.batch.number + 1, now, h.world.timers.elems, h.world.blocks⟩ }
  | .call => { h with world := w, log := h.log ++ h.world.firing h.batch }
  | _ => { h with world := w }

def History.step (h : History) (a : Act) : Option History :=
  (Timers.step h.world a).map fun w => h.record w a

/-- The expiration of the timer that the action creates is a 64-bit value. -/
def Act.fits : Act → Bool
  | .add _ delay now _ _ => fits64 (now + delay)
  | .addPeriodic _ interval now _ _ => fits64 (now + interval)
  | _ => true

/-- What a started callback may count on, given those started before it. -/
structure Fires (requests : Nat → Request) (before : List Firing) (g : Firing) : Prop where
  late : g.expiration ≤ g.batch.now
  asked : (requests g.block).due ≤ g.batch.now
  order : ∀ f ∈ before, f.batch.number = g.batch.number → f.expiration ≤ g.expiration
  earlier : ∀ e ∈ g.batch.pending, e.time < g.expiration →
    ∃ f ∈ before, f.batch.number = g.batch.number ∧ f.block = e.timer.block
  once : ∀ f ∈ before, f.batch.number = g.batch.number → f.block ≠ g.block
  old : g.block < g.batch.blocks
  periodic : ∀ f ∈ before, f.block = g.block → 0 < (requests g.block).interval
  spacing : ∀ f ∈ before, f.block = g.block → fits64 (f.batch.now + (requests g.block).interval) = true →
    f.batch.now + (requests g.block).interval ≤ g.batch.now

theorem Fires.congr {requests requests' : Nat → Request} {before : List Firing} {g : Firing}
    (fires : Fires requests before g) (same : requests' g.block = requests g.block) : Fires requests' before g := by
  obtain ⟨late, asked, order, earlier, once, old, periodic, spacing⟩ := fires
  rw [← same] at asked periodic spacing
  exact ⟨late, asked, order, earlier, once, old, periodic, spacing⟩

@[simp] theorem History.record_world (h : History) (w : World) (a : Act) : (h.record w a).world = w := by
  cases a <;> rfl

theorem History.step_record {h h' : History} {a : Act} (move : h.step a = some h') :
    Timers.step h.world a = some h'.world ∧ h' = h.record h'.world a := by
  obtain ⟨w, done, rfl⟩ := Option.map_eq_some_iff.mp move
  rw [History.record_world]
  exact ⟨done, rfl⟩

theorem World.due_le {w : World} {now : Int} {e : Entry} (due : e ∈ w.due now) : e.time ≤ now := by
  have passed := KeyedSet.popWhile_true (p := fun e : Entry => decide (e.time ≤ now)) due
  exact of_decide_eq_true passed

theorem World.later_lt {w : World} {now : Int} {e : Entry} (left : e ∈ w.later now) : now < e.time := by
  have failed := KeyedSet.popWhile_false (p := fun e : Entry => decide (e.time ≤ now)) left fun a b below passed =>
    decide_eq_true ((Entry.time_le below).trans (of_decide_eq_true passed))
  exact not_le.mp (of_decide_eq_false failed)

theorem World.rearm_clock_le {w : World} {now : Int} (late : w.clock ≤ now) : w.clock ≤ (w.rearm now).clock := by
  unfold rearm
  split
  · exact le_rfl
  · exact late

theorem World.insertNew_clock_ge (w : World) {callback addr : Nat} {delay interval now now' : Int}
    (later : now ≤ now') : now ≤ (w.insertNew callback delay interval now now' addr).clock := by
  rcases w.insertNew_eq callback delay interval now now' addr with ⟨_, same⟩ | ⟨_, same⟩
  · rw [same]
    exact later
  · rw [same]
    exact le_rfl

theorem Move.clock {w w' : World} {a : Act} (move : Move w a w') : w.clock ≤ w'.clock := by
  cases move with
  | fire _ late => exact late
  | insert _ _ _ late later => exact late.trans (w.insertNew_clock_ge later)
  | missed => split <;> exact le_rfl
  | removed _ late =>
    split
    · exact World.rearm_clock_le late
    · exact le_rfl
  | expire _ late => exact late
  | @finish _ _ _ kept _ late loop =>
    obtain ⟨_, _, _, _, _, _, _, clock⟩ := loop.frame
    have same : kept.clock = w.clock := clock
    have late' : ({ kept with cancelingSeqs := [], activation := .idle } : World).clock ≤ _ := same.le.trans late
    exact same.ge.trans (World.rearm_clock_le late')
  | _ => exact le_rfl

end CoroNet.Timers
