import CoroNet.Idle.Wheel
import CoroNet.Scheduler.Loop
import Mathlib.Order.Lattice

namespace CoroNet.TcpConnection.Descriptors

open Function Transition

/-- Who has an open descriptor: the kernel gave it out as the result of an
accept that is not consumed yet, somebody else in the process, a connection. -/
inductive Owner
  | accepted
  | other
  | conn (k : Nat)
deriving DecidableEq

/-- A `TcpConnection`; `entry` is the `idle_entry_` it was installed with. -/
structure Connection where
  fd : Int
  entry : Option Nat

/-- A call of a connection's method that awaits, with what it takes from its
arguments and from the connection's slot. -/
inductive Method
  | recv (writable : Nat)
  | recvFixed (slotSize : Nat) (bufIndex : Int)
  | send (remaining : Nat)
  | sendFixed (remaining : Nat) (bufIndex : Int)
  | shutdown
deriving DecidableEq

def Method.awaiter (fd : Int) : Method → Scheduler.IoAwaiter
  | .recv writable => .recvIntoBuffer fd writable
  | .recvFixed slotSize bufIndex => .recvFixed fd slotSize bufIndex
  | .send remaining => .send fd remaining
  | .sendFixed remaining bufIndex => .sendFixed fd remaining bufIndex
  | .shutdown => .shutdown fd Scheduler.shutRdwr

/-- The operations that renew the connection's place in the wheel. -/
def Method.receives : Method → Bool
  | .recv _ | .recvFixed .. => true
  | _ => false

/-- An operation from its preparation until its completion is consumed: the
coroutine that awaits it, the connection it was prepared for and its awaiter. -/
structure Op where
  coro : Nat
  conn : Nat
  method : Method
  awaiter : Scheduler.IoAwaiter

/-- `table` are the open descriptors of the process. `pointers` are the
shared pointers to connections, each with the coroutine whose frame has it,
`coros` counts the coroutines. `closed` are the connections whose destructor
has closed their descriptor, in order. -/
structure World where
  table : Int → Option Owner
  wheel : Option IdleConnectionWheel.World
  conns : List Connection := []
  pointers : List (Nat × Nat) := []
  ops : List Op := []
  coros : Nat := 0
  closed : List Nat := []

/-- The kernel gives out a descriptor for a connection that came in; the accept
loop makes the connection and spawns its handler. A coroutine prepares an
operation on a connection it has a pointer to; the completion of operation `j`
is consumed. A coroutine gives a pointer to another one, drops one, ends. The
wheel ticks. Others open and close descriptors. -/
inductive Act
  | kernelAccept (fd : Int)
  | accept (fd : Int)
  | prepare (c k : Nat) (m : Method)
  | complete (j : Nat) (res : Int)
  | share (c k d : Nat)
  | drop (c k : Nat)
  | finish (c : Nat)
  | tick
  | openOther (fd : Int)
  | closeOther (fd : Int)

namespace World

/-- The coroutine is suspended on an operation. -/
def awaits (w : World) (c : Nat) : Bool := w.ops.any fun op => op.coro = c

/-- The connections no frame has a pointer to any more. -/
def dead (w : World) : List Nat :=
  (List.range w.conns.length).filter fun k => decide (k ∉ w.closed ∧ ∀ p ∈ w.pointers, p.2 ≠ k)

/-- `~TcpConnection` of the connections without a pointer: `::close(fd_)`,
whoever has that number in the table. -/
def reap (w : World) : World :=
  { w with
    table := fun fd => if w.dead.any fun k => w.conns[k]?.any fun conn => conn.fd = fd then none else w.table fd
    closed := w.closed ++ w.dead
    wheel := w.wheel.map fun wheel => { wheel with closed := wheel.closed ++ w.dead } }

/-- `wheel->register_conn(tc)`; the wheel of a server without a timeout is null. -/
def registerConn (w : World) (k : Nat) : Option (Option IdleConnectionWheel.World) :=
  match w.wheel with
  | none => some none
  | some wheel => (IdleConnectionWheel.step wheel (.registerConn k)).map some

/-- `make_shared<TcpConnection>`, `install_idle` and the spawn of the handler,
which gets the pointer. -/
def accept (w : World) (fd : Int) : Option World :=
  (w.registerConn w.conns.length).map fun wheel =>
    { w with
      table := update w.table fd (some (.conn w.conns.length))
      wheel := wheel
      conns := w.conns ++ [{ fd := fd, entry := w.wheel.map fun wheel => wheel.wconn.length }]
      pointers := w.pointers ++ [(w.coros, w.conns.length)]
      coros := w.coros + 1 }

def prepare (w : World) (c k : Nat) (m : Method) : Option World :=
  match w.conns[k]? with
  | some conn =>
    -- `shutdown()` of a connection without a descriptor returns at once
    if m = .shutdown ∧ conn.fd < 0 then none
    else some { w with ops := w.ops ++ [{ coro := c, conn := k, method := m, awaiter := m.awaiter conn.fd }] }
  | none => none

/-- The rest of `recv` and `recv_fixed` after the completion. -/
def renew (w : World) (op : Op) (res : Int) : World :=
  match w.wheel, w.conns[op.conn]?.bind Connection.entry with
  | some wheel, some e =>
    if op.method.receives ∧ 0 < res then
      { w with wheel := some ((IdleConnectionWheel.step wheel (.recv e res)).getD wheel) }
    else w
  | _, _ => w

/-- `~IdleEntry` of a connection that exists: a coroutine with a pointer to it,
which runs up to its `ShutdownAwaiter`. -/
def evict (w : World) (k : Nat) : World :=
  let spawned := { w with pointers := w.pointers ++ [(w.coros, k)], coros := w.coros + 1 }
  (spawned.prepare w.coros k .shutdown).getD spawned

def tick (w : World) : World :=
  match w.wheel with
  | none => w
  | some wheel => (wheel.evicted.filterMap wheel.lock).foldl evict { w with wheel := some wheel.tick }

end World

/-- A coroutine keeps its pointer to a connection while it awaits on it, and
does nothing else meanwhile. -/
def step (w : World) : Act → Option World
  | .kernelAccept fd =>
    if 0 ≤ fd ∧ w.table fd = none then some { w with table := update w.table fd (some .accepted) } else none
  | .accept fd => if w.table fd = some .accepted then w.accept fd else none
  | .prepare c k m => if (c, k) ∈ w.pointers ∧ w.awaits c = false then w.prepare c k m else none
  | .complete j res =>
    match w.ops[j]? with
    | some op => some (World.renew { w with ops := w.ops.eraseIdx j } op res)
    | none => none
  | .share c k d =>
    if (c, k) ∈ w.pointers ∧ w.awaits c = false ∧ d ≤ w.coros then
      some { w with pointers := w.pointers ++ [(d, k)], coros := max w.coros (d + 1) }
    else none
  | .drop c k =>
    if (c, k) ∈ w.pointers ∧ w.awaits c = false then some (World.reap { w with pointers := w.pointers.erase (c, k) })
    else none
  | .finish c =>
    if w.awaits c = false then some (World.reap { w with pointers := w.pointers.filter fun p => p.1 ≠ c }) else none
  | .tick => some w.tick
  | .openOther fd =>
    if 0 ≤ fd ∧ w.table fd = none then some { w with table := update w.table fd (some .other) } else none
  | .closeOther fd => if w.table fd = some .other then some { w with table := update w.table fd none } else none

/-- A worker without connections, in a process with some descriptors open. -/
def start (others : Int → Bool) (idle : Int) : World where
  table fd := if others fd then some .other else none
  wheel := if 0 < idle then some (IdleConnectionWheel.start idle) else none

end CoroNet.TcpConnection.Descriptors
