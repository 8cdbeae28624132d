import CoroNet.Idle.Eviction
import Mathlib.Algebra.Order.Field.Rat
import Mathlib.Algebra.Order.Ring.Cast
import Mathlib.Tactic.Linarith

namespace CoroNet.IdleConnectionWheel

open Function Transition

variable {T : Type*} [Field T]

/-- An entry destroyed while its connection still existed: the time of the
registration or of the last reception that brought data, of the first tick
after it and of the tick that destroyed the entry. -/
structure Eviction (T : Type*) where
  entry : Nat
  since : T
  first : T
  now : T

/-- A wheel in time. -/
structure Timed (T : Type*) where
  wheel : World
  clock : T
  lastTick : Option T := none
  since : Nat → T
  first : Nat → T
  evicted : List (Eviction T) := []

namespace Timed

def start (idle : Int) : Timed T :=
  { wheel := IdleConnectionWheel.start idle, clock := 0, since := fun _ => 0, first := fun _ => 0 }

/-- The first tick after the latest event of an entry, when a tick comes now. -/
def firstTick (w : Timed T) (now : T) (e : Nat) : T := if w.wheel.touched e = w.wheel.ticks then now else w.first e

/-- The timer of the tick coroutine runs for a second at least. -/
def due [LinearOrder T] (w : Timed T) (now : T) : Bool := w.lastTick.all fun t => decide (t + 1 ≤ now)

/-- The accept loop registers every connection once, when it is made, so that
connection `e` has entry `e`. -/
def step [LinearOrder T] (w : Timed T) : T × Act → Option (Timed T)
  | (now, a) =>
    if now < w.clock then none
    else match a with
      | .registerConn c =>
        if c = w.wheel.wconn.length then
          (IdleConnectionWheel.step w.wheel a).map fun wheel =>
            { w with wheel := wheel, clock := now, since := update w.since c now }
        else none
      | .recv e n =>
        (IdleConnectionWheel.step w.wheel a).map fun wheel =>
          { w with wheel := wheel, clock := now, since := if 0 < n then update w.since e now else w.since }
      | .close _ => (IdleConnectionWheel.step w.wheel a).map fun wheel => { w with wheel := wheel, clock := now }
      | .tick =>
        if w.due now then
          some { w with
            wheel := w.wheel.tick
            clock := now
            lastTick := some now
            first := w.firstTick now
            evicted := w.evicted ++ (w.wheel.evicted.filter fun e => (w.wheel.lock e).isSome).map fun e =>
              ⟨e, w.since e, w.firstTick now e, now⟩ }
        else none

/-- No connection that exists was registered, or received data, since the
last tick and less than a second before this one. -/
def unhurried [LinearOrder T] (w : Timed T) : T × Act → Bool
  | (now, .tick) => (List.range w.wheel.wconn.length).all fun e =>
      !(w.wheel.lock e).isSome || decide (w.wheel.touched e ≠ w.wheel.ticks) || decide (w.since e + 1 ≤ now)
  | _ => true

/-- Ticks come a second apart, neither more nor less. -/
def exact [LinearOrder T] (w : Timed T) : T × Act → Bool
  | (now, .tick) => w.lastTick.all fun t => decide (t + 1 = now)
  | _ => true

variable {w w' : Timed T} {N : Nat} {now : T} {a : Act}

/-- An entry the wheel will not destroy at its next tick or has not yet. -/
def Young (w : World) (N e : Nat) : Prop := e < w.wconn.length ∧ w.ticks < w.touched e + N

/-- The ticks since the first one after the latest event are a second apart,
at least or exactly, as the relation says. -/
structure Paced (R : T → T → Prop) (w : Timed T) (N : Nat) : Prop where
  lawful : Lawful w.wheel N
  young : ∀ e, Young w.wheel N e → w.wheel.touched e < w.wheel.ticks →
    ∃ t, w.lastTick = some t ∧ R (w.first e + (w.wheel.ticks - w.wheel.touched e - 1 : Nat)) t
  evicted : ∀ r ∈ w.evicted, R (r.first + (N - 1 : Nat)) r.now

/-- A relation between times that adds up along ticks a second apart. -/
structure Pace (R : T → T → Prop) : Prop where
  refl : ∀ t, R t t
  tick : ∀ {s t now : T}, R s t → R (t + 1) now → R (s + 1) now

theorem pace_eq : Pace (T := T) (· = ·) :=
  ⟨fun _ => rfl, fun first second => (congrArg (· + 1) first).trans second⟩

/-- At a tick: the time from the first tick after the latest event of an entry
is the number of ticks since. -/
theorem Paced.firstTick {R : T → T → Prop} (pace : Pace R) (paced : Paced R w N)
    (apart : ∀ t, w.lastTick = some t → R (t + 1) now) {e : Nat} (young : Young w.wheel N e) :
    R (w.firstTick now e + (w.wheel.ticks - w.wheel.touched e : Nat)) now := by
  obtain ⟨⟨recent, aged⟩, _⟩ := paced.lawful
  have past := aged.past e young.1
  unfold Timed.firstTick
  by_cases latest : w.wheel.touched e = w.wheel.ticks
  · rw [if_pos latest, latest, Nat.sub_self, Nat.cast_zero, add_zero]
    exact pace.refl now
  · rw [if_neg latest]
    obtain ⟨t, last, before⟩ := paced.young e young (by omega)
    have next := pace.tick before (apart t last)
    rw [show w.wheel.ticks - w.wheel.touched e = w.wheel.ticks - w.wheel.touched e - 1 + 1 by omega, Nat.cast_succ,
      ← add_assoc]
    exact next

theorem start_lawful {idle : Int} (fits : idle < 2 ^ 63) :
    Lawful (start (T := T) idle).wheel (bucketCount idle) :=
  run_lawful fits .start

theorem start_not_young {idle : Int} {e : Nat} : ¬ Young (start (T := T) idle).wheel (bucketCount idle) e :=
  fun young => Nat.not_lt_zero e young.1

/-- The buckets make up the timeout but for one second, which passes before
the first tick or not. -/
theorem bucketCount_seconds {idle : Int} (positive : 1 ≤ idle) : ((bucketCount idle - 1 : Nat) : T) = idle - 1 := by
  have count : (bucketCount idle : Int) = idle := by
    rw [bucketCount, if_pos (by omega)]
    omega
  rw [Nat.cast_sub (bucketCount_pos idle), ← Int.cast_natCast, count, Nat.cast_one]

variable [LinearOrder T]

theorem pace_le [IsStrictOrderedRing T] : Pace (T := T) (· ≤ ·) :=
  ⟨fun _ => le_rfl, fun first second => (add_le_add_left first 1).trans second⟩

/-- Between two ticks an entry either is touched or keeps all it had. -/
theorem between_ticks (lawful : Lawful w.wheel N) (other : a ≠ .tick) (move : step w (now, a) = some w') :
    ∃ wheel since, w' = { w with wheel := wheel, clock := now, since := since } ∧ Lawful wheel N ∧
      wheel.ticks = w.wheel.ticks ∧ ∀ e, Young wheel N e → wheel.touched e < wheel.ticks →
        Young w.wheel N e ∧ wheel.touched e = w.wheel.touched e ∧ since e = w.since e ∧
          ((wheel.lock e).isSome = true → (w.wheel.lock e).isSome = true) := by
  obtain ⟨_, move⟩ := Option.ite_none_left_eq_some.mp move
  cases a with
  | tick => exact absurd rfl other
  | registerConn c =>
    obtain ⟨rfl, move⟩ := Option.ite_none_right_eq_some.mp move
    obtain ⟨wheel, moved, rfl⟩ := Option.map_eq_some_iff.mp move
    obtain ⟨made, next⟩ := lawful.step moved
    refine ⟨wheel, _, rfl, next, ?_⟩
    cases made with
    | registerConn =>
      refine ⟨rfl, fun e young old => ?_⟩
      by_cases same : e = w.wheel.wconn.length
      · simp [same] at old
      · obtain ⟨known, early⟩ := young
        simp only [update_of_ne same, List.length_append, List.length_singleton] at known early
        have before : e < w.wheel.wconn.length := by omega
        refine ⟨⟨before, early⟩, update_of_ne same .., update_of_ne same .., ?_⟩
        simp [World.lock, List.getElem?_append_left before]
  | recv e n =>
    obtain ⟨wheel, moved, rfl⟩ := Option.map_eq_some_iff.mp move
    obtain ⟨made, next⟩ := lawful.step moved
    refine ⟨wheel, _, rfl, next, ?_⟩
    cases made with
    | refresh alive data =>
      refine ⟨rfl, fun e' young old => ?_⟩
      by_cases same : e' = e
      · simp [same] at old
      · obtain ⟨known, early⟩ := young
        simp only [update_of_ne same] at known early
        refine ⟨⟨known, early⟩, update_of_ne same .., ?_, id⟩
        rw [if_pos data, update_of_ne same]
    | recv alive late =>
      refine ⟨rfl, fun e' young old => ⟨young, rfl, ?_, id⟩⟩
      by_cases data : 0 < n
      · obtain ⟨recent, aged⟩ := lawful.1
        have different : e' ≠ e := by
          rintro rfl
          exact late ⟨data, aged.held_iff.mpr young⟩
        rw [if_pos data, update_of_ne different]
      · rw [if_neg data]
  | close c =>
    obtain ⟨wheel, moved, rfl⟩ := Option.map_eq_some_iff.mp move
    obtain ⟨made, next⟩ := lawful.step moved
    refine ⟨wheel, _, rfl, next, ?_⟩
    cases made with
    | close =>
      refine ⟨rfl, fun e young old => ⟨young, rfl, rfl, ?_⟩⟩
      intro alive
      obtain ⟨c', locked⟩ := Option.isSome_iff_exists.mp alive
      obtain ⟨here, still⟩ := Option.filter_eq_some_iff.mp locked
      simp only [Bool.not_eq_true', List.contains_eq_mem, List.mem_append, decide_eq_false_iff_not, not_or] at still
      exact Option.isSome_iff_exists.mpr ⟨c', Option.filter_eq_some_iff.mpr ⟨here, by simpa using still.1⟩⟩

theorem tick_cases (move : step w (now, .tick) = some w') :
    (∀ t, w.lastTick = some t → t + 1 ≤ now) ∧ w' = { w with
      wheel := w.wheel.tick
      clock := now
      lastTick := some now
      first := w.firstTick now
      evicted := w.evicted ++ (w.wheel.evicted.filter fun e => (w.wheel.lock e).isSome).map fun e =>
        ⟨e, w.since e, w.firstTick now e, now⟩ } := by
  obtain ⟨_, move⟩ := Option.ite_none_left_eq_some.mp move
  obtain ⟨due, moved⟩ := Option.ite_none_right_eq_some.mp move
  refine ⟨fun t last => ?_, (Option.some.inj moved).symm⟩
  simpa [Timed.due, last] using due

theorem Paced.step {R : T → T → Prop} (pace : Pace R) (paced : Paced R w N)
    (apart : a = .tick → ∀ t, w.lastTick = some t → R (t + 1) now) (move : step w (now, a) = some w') :
    Paced R w' N := by
  by_cases ticks : a = .tick
  · subst ticks
    have first := fun e => paced.firstTick pace (apart rfl) (e := e)
    have lawful : Lawful w.wheel.tick N := (paced.lawful.step (a := .tick) rfl).2
    obtain ⟨⟨recent, aged⟩, _⟩ := paced.lawful
    obtain ⟨_, rfl⟩ := tick_cases move
    refine ⟨lawful, ?_, ?_⟩
    · rintro e ⟨known, early⟩ _
      simp only [World.tick] at known early
      have past := aged.past e known
      refine ⟨now, rfl, ?_⟩
      have next := first e ⟨known, by omega⟩
      simp only [World.tick]
      rwa [show w.wheel.ticks + 1 - w.wheel.touched e - 1 = w.wheel.ticks - w.wheel.touched e by omega]
    · intro r member
      rcases List.mem_append.mp member with old | fresh
      · exact paced.evicted r old
      · obtain ⟨e, gone, rfl⟩ := List.mem_map.mp fresh
        obtain ⟨known, due⟩ := aged.mem_evicted.mp (List.mem_filter.mp gone).1
        have next := first e ⟨known, by omega⟩
        rwa [show w.wheel.ticks - w.wheel.touched e = N - 1 by omega] at next
  · obtain ⟨wheel, since, rfl, lawful, same, keeps⟩ := between_ticks paced.lawful ticks move
    refine ⟨lawful, fun e young old => ?_, paced.evicted⟩
    obtain ⟨before, touched, _⟩ := keeps e young old
    simp only at old
    rw [same, touched] at old
    simp only [same, touched]
    exact paced.young e before old

/-- The first tick comes a second or more after the latest event. -/
structure Calm (w : Timed T) (N : Nat) : Prop where
  lawful : Lawful w.wheel N
  young : ∀ e, Young w.wheel N e → (w.wheel.lock e).isSome = true → w.wheel.touched e < w.wheel.ticks →
    w.since e + 1 ≤ w.first e
  evicted : ∀ r ∈ w.evicted, r.since + 1 ≤ r.first

theorem Calm.step (calm : Calm w N) (met : w.unhurried (now, a) = true) (move : step w (now, a) = some w') :
    Calm w' N := by
  by_cases ticks : a = .tick
  · subst ticks
    have first : ∀ e, Young w.wheel N e → (w.wheel.lock e).isSome = true → w.since e + 1 ≤ w.firstTick now e := by
      intro e young alive
      obtain ⟨⟨recent, aged⟩, _⟩ := calm.lawful
      unfold Timed.firstTick
      by_cases latest : w.wheel.touched e = w.wheel.ticks
      · rw [if_pos latest]
        have waited := List.all_eq_true.mp met e (List.mem_range.mpr young.1)
        simpa [alive, latest] using waited
      · rw [if_neg latest]
        exact calm.young e young alive (lt_of_le_of_ne (aged.past e young.1) latest)
    have lawful : Lawful w.wheel.tick N := (calm.lawful.step (a := .tick) rfl).2
    obtain ⟨⟨recent, aged⟩, _⟩ := calm.lawful
    obtain ⟨_, rfl⟩ := tick_cases move
    refine ⟨lawful, ?_, ?_⟩
    · rintro e ⟨known, early⟩ alive _
      simp only [World.tick] at known early
      exact first e ⟨known, by omega⟩ alive
    · intro r member
      rcases List.mem_append.mp member with old | fresh
      · exact calm.evicted r old
      · obtain ⟨e, gone, rfl⟩ := List.mem_map.mp fresh
        obtain ⟨inside, alive⟩ := List.mem_filter.mp gone
        obtain ⟨known, due⟩ := aged.mem_evicted.mp inside
        exact first e ⟨known, by omega⟩ alive
  · obtain ⟨wheel, since, rfl, lawful, same, keeps⟩ := between_ticks calm.lawful ticks move
    refine ⟨lawful, fun e young alive old => ?_, calm.evicted⟩
    obtain ⟨before, touched, since_eq, lock⟩ := keeps e young old
    simp only at old
    rw [same, touched] at old
    simp only [since_eq]
    exact calm.young e before (lock alive) old

theorem run_paced {R : T → T → Prop} (pace : Pace R) {idle : Int} (fits : idle < 2 ^ 63) {acts : List (T × Act)}
    {cond : Timed T → T × Act → Prop} (reach : RunWhile step cond (start idle) acts w)
    (apart : ∀ {w w' : Timed T} {now : T} {a : Act}, cond w (now, a) → step w (now, a) = some w' → a = .tick →
      ∀ t, w.lastTick = some t → R (t + 1) now) : Paced R w (bucketCount idle) := by
  have initial : Paced R (start (T := T) idle) (bucketCount idle) :=
    ⟨start_lawful fits, fun _ young => absurd young start_not_young, nofun⟩
  exact reach.invariant (P := fun w => Paced R w (bucketCount idle)) initial
    fun paced met move => paced.step pace (apart met move) move

theorem run_calm {idle : Int} (fits : idle < 2 ^ 63) {acts : List (T × Act)}
    (reach : RunWhile step (fun w x => w.unhurried x = true) (start idle) acts w) : Calm w (bucketCount idle) := by
  have initial : Calm (start (T := T) idle) (bucketCount idle) :=
    ⟨start_lawful fits, fun _ young => absurd young start_not_young, nofun⟩
  exact reach.invariant (P := fun w => Calm w (bucketCount idle)) initial fun calm met move => calm.step met move

/-- Where no event comes within the second before a tick, every connection
gets its full time; with ticks exactly a second apart one gets it just when
its latest event came no later. -/
theorem no_early_eviction [IsStrictOrderedRing T] {idle : Int} (positive : 1 ≤ idle) (fits : idle < 2 ^ 63) :
    (∀ (acts : List (T × Act)) (w : Timed T), RunWhile step (fun w x => w.unhurried x = true) (start idle) acts w →
      ∀ r ∈ w.evicted, r.since + idle ≤ r.now) ∧
    (∀ (acts : List (T × Act)) (w : Timed T), RunWhile step (fun w x => w.exact x = true) (start idle) acts w →
      ∀ r ∈ w.evicted, r.since + idle ≤ r.now ↔ r.since + 1 ≤ r.first) := by
  constructor
  · intro acts w reach r member
    have calm := (run_calm fits reach).evicted r member
    have paced := (run_paced pace_le fits reach fun _ move ticks t last => by
      subst ticks
      exact (tick_cases move).1 t last).evicted r member
    rw [bucketCount_seconds positive] at paced
    linarith
  · intro acts w reach r member
    have paced := (run_paced pace_eq fits reach fun met _ ticks t last => by
      subst ticks
      simpa [Timed.exact, last] using met).evicted r member
    rw [bucketCount_seconds positive] at paced
    constructor <;> intro long <;> linarith

/-- The connection is registered a second before the first tick and hears
nothing; the other one receives data in between. -/
def fullSecond : List (ℚ × Act) :=
  [(0, .registerConn 0), (0, .registerConn 1), (1, .tick), (3 / 2, .recv 1 4), (5 / 2, .tick), (7 / 2, .tick)]

theorem full_second_evicts_on_time :
    (after (guarded unhurried step) (start 2) fullSecond).evicted.map Eviction.entry = [0, 1] ∧
      ∀ r ∈ (after (guarded unhurried step) (start 2) fullSecond).evicted, r.since + (2 : Int) ≤ r.now := by
  have reach : RunWhile step (fun w x => w.unhurried x = true) (start 2) fullSecond
      (after (guarded unhurried step) (start 2) fullSecond) := guarded_run (run_after (by decide +kernel))
  exact ⟨by decide +kernel, (no_early_eviction (by decide) (by decide)).1 _ _ reach⟩

/-- With one bucket, a connection registered right before a tick is destroyed
by it. -/
def hurriedTick : List (ℚ × Act) := [(1 / 2, .registerConn 0), (1, .tick)]

theorem evicted_early : ¬ ∀ (idle : Int) (acts : List (ℚ × Act)) (w : Timed ℚ), 1 ≤ idle →
    Run step (start idle) acts w → ∀ r ∈ w.evicted, r.since + idle ≤ r.now := by
  intro claim
  have reach : Run step (start 1) hurriedTick (after step (start 1) hurriedTick) := run_after (by decide +kernel)
  have early := claim 1 hurriedTick _ le_rfl reach
  revert early
  decide +kernel

end Timed

end CoroNet.IdleConnectionWheel
