import CoroNet.General.Runs
import CoroNet.Idle.CircularBuffer
import CoroNet.Int64
import Mathlib.Data.List.Nodup
import Mathlib.Logic.Function.Basic

namespace CoroNet.IdleConnectionWheel

open Function Transition

/-- A set of shared pointers to entries, without duplicates. -/
abbrev Bucket := List Nat

/-- A wheel with the entries made for it. Entry `e` refers weakly to the
connection `wconn[e]` and lives as long as a bucket holds it. `destroyed` are
the entries destroyed, each with the tick that did it, and `touched` is, for
every entry, the number of ticks before its latest event: its registration, or
a reception that brought data while the entry was alive. -/
structure World where
  buckets : CircularBuffer Bucket
  wconn : List Nat := []
  closed : List Nat := []
  spawned : List Nat := []
  ticks : Nat := 0
  touched : Nat → Nat := fun _ => 0
  destroyed : List (Nat × Nat) := []

/-- A connection is registered, a reception for the connection of an entry
returns, a connection is destroyed, the wheel ticks. -/
inductive Act
  | registerConn (c : Nat)
  | recv (e : Nat) (n : Int)
  | close (c : Nat)
  | tick

def bucketCount (idle : Int) : Nat := if 0 < idle then idle.toNat else 1

def fill : Nat → CircularBuffer Bucket → CircularBuffer Bucket
  | 0, b => b
  | i + 1, b => fill i (b.pushBack [])

/-- The wheel as it is constructed, with all buckets empty. -/
def start (idle : Int) : World :=
  { buckets := fill (bucketCount idle) (.make [] (bucketCount idle)) }

namespace World

/-- Whether some bucket shares the ownership of an entry. -/
def held (w : World) (e : Nat) : Bool := w.buckets.buffer.any fun bucket => bucket.contains e

/-- The connection of an entry, when it still exists. -/
def lock (w : World) (e : Nat) : Option Nat := w.wconn[e]?.filter fun c => !w.closed.contains c

/-- `buckets_.back().insert(e)`. -/
def insert (w : World) (e : Nat) : Option World := do
  let buckets ← w.buckets.modifyBack fun bucket => bucket.insert e
  return { w with buckets := buckets }

def registerConn (w : World) (c : Nat) : Option World :=
  World.insert { w with wconn := w.wconn ++ [c] } w.wconn.length

def refresh (w : World) (e : Nat) : Option World := w.insert e

/-- The entries only the overwritten bucket held. -/
def evicted (w : World) : List Nat :=
  (w.buckets.buffer[w.buckets.tail]?.getD []).filter fun e =>
    !World.held { w with buckets := w.buckets.pushBack [] } e

/-- A new bucket comes in; every entry destroyed by it spawns a shutdown of
its connection, when that still exists. -/
def tick (w : World) : World :=
  { w with
    buckets := w.buckets.pushBack []
    spawned := w.spawned ++ w.evicted.filterMap w.lock
    destroyed := w.destroyed ++ w.evicted.map fun e => (e, w.ticks + 1)
    ticks := w.ticks + 1 }

def act (w : World) : Act → Option World
  | .registerConn c => if c ∈ w.closed then none else w.registerConn c
  | .recv e n =>
    match w.lock e with
    | none => none
    | some _ => if 0 < n ∧ w.held e then w.refresh e else some w
  | .close c => if c ∈ w.closed then none else some { w with closed := w.closed ++ [c] }
  | .tick => some w.tick

/-- The latest events after an action, whatever the wheel makes of it. -/
def latest (w : World) : Act → Nat → Nat
  | .registerConn _ => update w.touched w.wconn.length w.ticks
  | .recv e n => if 0 < n ∧ w.held e then update w.touched e w.ticks else w.touched
  | .close _ | .tick => w.touched

end World

def step (w : World) (a : Act) : Option World := (w.act a).map fun next => { next with touched := w.latest a }

end CoroNet.IdleConnectionWheel
