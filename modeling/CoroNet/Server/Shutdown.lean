import CoroNet.Memory.RegisteredBufferPool
import CoroNet.Scheduler.Pool

namespace CoroNet.TcpServer.Shutdown

open Function Transition

/-- A connection: its descriptor, its worker, and what concerns its slot. -/
structure Connection (n : Nat) where
  fd : Int
  sched : Fin n
  buffer : TcpConnection

/-- The frame of coroutine `coro` of a worker has a shared pointer to connection `conn`. -/
structure Frame (n : Nat) where
  sched : Fin n
  coro : Nat
  conn : Nat
deriving DecidableEq

/-- Where a call of `stop()` is: at the `post_task` to scheduler `k`, inside it
after the push. -/
inductive Stop
  | ready
  | posting (k : Nat)
  | waking (k : Nat)
  | returned
deriving DecidableEq

/-- Where a call of `wait()` is: at the join of worker `k`. -/
inductive Wait
  | ready
  | joining (k : Nat)
  | returned
deriving DecidableEq

/-- A server after the first part of `start()`. `acceptors` are the coroutines
of the accept loops, with the number of results handed out on the worker when
the loop last took one. `entries` are the connections with an `IdleEntry` in a
wheel, `late` those for which one was still there when the wheels were
destroyed. `destroyed`, `closed` and `released` list what the destructors of
connections have done. -/
structure World (n : Nat) where
  scheds : Fin n → Scheduler.World
  bufPools : Fin n → Option RegisteredBufferPool
  idle : Int
  running : Bool := true
  stop : Stop := .ready
  wait : Wait := .ready
  acceptors : Fin n → Option Nat := fun _ => none
  accepted : Fin n → Nat := fun _ => 0
  conns : List (Connection n) := []
  frames : List (Frame n) := []
  entries : List Nat := []
  destroyed : List Nat := []
  closed : List Int := []
  released : List (Fin n × Int) := []
  late : List Nat := []
  gone : Bool := false

/-- A scheduler takes a step that concerns no connection; the coroutine on top
of its stack ends; a boot task starts the accept loop; the accept loop makes a
connection and spawns its handler `c`; a coroutine gives a connection to a new
one, or lets go of it; the wheel evicts a connection, whose shutdown is
coroutine `c`. Threads call `stop()`, `wait()`, and go on in them; the server
is destroyed. -/
inductive Act (n : Nat)
  | worker (i : Fin n) (a : Scheduler.Act)
  | finish (i : Fin n)
  | acceptLoop (i : Fin n) (c : Nat)
  | accept (i : Fin n) (c : Nat)
  | share (i : Fin n) (c k : Nat)
  | drop (i : Fin n) (k : Nat)
  | evict (i : Fin n) (c k : Nat)
  | stop
  | stopNext
  | wait
  | waitNext
  | destroy

variable {n : Nat}

namespace World

def set (w : World n) (i : Fin n) (sched : Scheduler.World) : World n := { w with scheds := update w.scheds i sched }

/-- `make_shared<TcpConnection>(fd, peer, s)`, which goes to the frame of `c`. -/
def construct (w : World n) (i : Fin n) (fd : Int) (c : Nat) : World n :=
  let made := SlotOwners.World.construct { bufPool := w.bufPools i }
  { w with
    bufPools := update w.bufPools i made.bufPool
    conns := w.conns ++ [{ fd := fd, sched := i, buffer := made.conns.headD {} }]
    frames := w.frames ++ [⟨i, c, w.conns.length⟩]
    entries := if 0 < w.idle then w.entries ++ [w.conns.length] else w.entries }

/-- `~TcpConnection` of connection `k`. -/
def destruct (w : World n) (k : Nat) : World n :=
  match w.conns[k]? with
  | none => w
  | some conn =>
    { w with
      bufPools := update w.bufPools conn.sched
        (SlotOwners.World.destroy { bufPool := w.bufPools conn.sched } 0 conn.buffer).bufPool
      released := if conn.buffer.hasFixedSlot then w.released ++ [(conn.sched, conn.buffer.bufIndex)] else w.released
      closed := if 0 ≤ conn.fd then w.closed ++ [conn.fd] else w.closed
      destroyed := w.destroyed ++ [k] }

/-- The connections that exist and to which no frame has a pointer. -/
def unowned (w : World n) : List Nat :=
  (List.range w.conns.length).filter fun k => decide (k ∉ w.destroyed ∧ ∀ f ∈ w.frames, f.conn ≠ k)

/-- Frames lose their pointers; the last one of a connection destroys it. -/
def letGo (w : World n) (lost : Frame n → Bool) : World n :=
  let w := { w with frames := w.frames.filter fun f => !lost f }
  w.unowned.foldl destruct w

/-- The next step of `stop()` after the listening sockets have been shut down;
`stop` posts the task that stops scheduler `k`. -/
def stopNext (w : World n) : Option (World n) :=
  match w.stop with
  | .posting k =>
    if h : k < n then
      (Scheduler.step (w.scheds ⟨k, h⟩) (.postTask 0 0)).map fun sched => { w.set ⟨k, h⟩ sched with stop := .waking k }
    else some { w with stop := .returned }
  | .waking k =>
    if h : k < n then
      (Scheduler.step (w.scheds ⟨k, h⟩) (.wake 0)).map fun sched =>
        { w.set ⟨k, h⟩ sched with stop := .posting (k + 1) }
    else none
  | .ready | .returned => none

/-- The next step of `wait()`. -/
def waitNext (w : World n) : Option (World n) :=
  match w.wait with
  | .joining k =>
    if h : k < n then
      if (w.scheds ⟨k, h⟩).pc = .returned then some { w with wait := .joining (k + 1) } else none
    else some { w with wait := .returned }
  | .ready | .returned => none

/-- The result the accept loop of a worker has just been resumed with. -/
def accepted? (w : World n) (i : Fin n) : Option Int :=
  match w.acceptors i, (w.scheds i).stack with
  | some acceptor, c :: _ =>
    if c = acceptor ∧ w.accepted i < (w.scheds i).resumed.length then (w.scheds i).resumed.getLast?.map Prod.snd
    else none
  | _, _ => none

end World

def step (w : World n) (a : Act n) : Option (World n) :=
  if w.gone then none
  else match a with
    | .worker i a =>
      if SchedulerPool.byOwner a ∨ a matches .finish then none else (Scheduler.step (w.scheds i) a).map (w.set i)
    | .finish i =>
      match (w.scheds i).stack, Scheduler.step (w.scheds i) .finish with
      | c :: _, some sched => some (World.letGo (w.set i sched) fun f => f.sched = i ∧ f.coro = c)
      | _, _ => none
    | .acceptLoop i c =>
      if w.acceptors i = none then
        (Scheduler.step (w.scheds i) (.spawn c)).map fun sched =>
          { w.set i sched with acceptors := update w.acceptors i (some c) }
      else none
    | .accept i c =>
      match w.accepted? i, Scheduler.step (w.scheds i) (.spawn c) with
      | some conn, some sched =>
        if 0 ≤ conn then
          some (World.construct
            { w.set i sched with accepted := update w.accepted i (w.scheds i).resumed.length } i conn c)
        else none
      | _, _ => none
    | .share i c k =>
      match (w.scheds i).stack with
      | d :: _ =>
        if ⟨i, d, k⟩ ∈ w.frames then
          (Scheduler.step (w.scheds i) (.spawn c)).map fun sched =>
            { w.set i sched with frames := w.frames ++ [⟨i, c, k⟩] }
        else none
      | [] => none
    | .drop i k =>
      match (w.scheds i).stack with
      | d :: _ =>
        if (w.scheds i).userCode ∧ ⟨i, d, k⟩ ∈ w.frames then some (w.letGo fun f => f = ⟨i, d, k⟩) else none
      | [] => none
    | .evict i c k =>
      if k ∈ w.entries ∧ k ∉ w.destroyed ∧ w.conns[k]?.map Connection.sched = some i then
        (Scheduler.step (w.scheds i) (.spawn c)).map fun sched =>
          { w.set i sched with frames := w.frames ++ [⟨i, c, k⟩], entries := w.entries.filter (· ≠ k) }
      else none
    | .stop => if w.running then some { w with running := false, stop := .posting 0 } else some w
    | .stopNext => w.stopNext
    | .wait => if w.wait = .ready then some { w with wait := .joining 0 } else none
    | .waitNext => w.waitNext
    | .destroy =>
      -- the shutdowns the wheels' entries spawn now are resumed by nobody
      if w.stop = .returned ∧ w.wait = .returned then
        some { w with gone := true, late := w.entries.filter fun k => k ∉ w.destroyed }
      else none

/-- A server of `n` workers whose schedulers have been constructed. -/
def start (n entries : Nat) (sqpoll : Bool) (bufPools : Fin n → Option RegisteredBufferPool) (idle : Int) : World n where
  scheds _ := Scheduler.start entries sqpoll
  bufPools := bufPools
  idle := idle

variable {w w' : World n} {a : Act n}

/-- What a step can be. -/
inductive Move (w : World n) : Act n → World n → Prop
  | worker {i : Fin n} {b : Scheduler.Act} {sched : Scheduler.World} : Scheduler.step (w.scheds i) b = some sched →
      Move w (.worker i b) (w.set i sched)
  | finish {i : Fin n} {c : Nat} {rest : List Nat} {sched : Scheduler.World} : (w.scheds i).stack = c :: rest →
      Scheduler.step (w.scheds i) .finish = some sched →
      Move w (.finish i) (World.letGo (w.set i sched) fun f => f.sched = i ∧ f.coro = c)
  | acceptLoop {i : Fin n} {c : Nat} {sched : Scheduler.World} :
      Scheduler.step (w.scheds i) (.spawn c) = some sched →
      Move w (.acceptLoop i c) { w.set i sched with acceptors := update w.acceptors i (some c) }
  | accept {i : Fin n} {c : Nat} {conn : Int} {sched : Scheduler.World} : w.accepted? i = some conn → 0 ≤ conn →
      Scheduler.step (w.scheds i) (.spawn c) = some sched →
      Move w (.accept i c) (World.construct
        { w.set i sched with accepted := update w.accepted i (w.scheds i).resumed.length } i conn c)
  | share {i : Fin n} {c d k : Nat} {sched : Scheduler.World} : ⟨i, d, k⟩ ∈ w.frames →
      Scheduler.step (w.scheds i) (.spawn c) = some sched →
      Move w (.share i c k) { w.set i sched with frames := w.frames ++ [⟨i, c, k⟩] }
  | drop {i : Fin n} {d k : Nat} : (w.scheds i).userCode = true → ⟨i, d, k⟩ ∈ w.frames →
      Move w (.drop i k) (w.letGo fun f => f = ⟨i, d, k⟩)
  | evict {i : Fin n} {c k : Nat} {conn : Connection n} {sched : Scheduler.World} : w.conns[k]? = some conn →
      k ∉ w.destroyed → Scheduler.step (w.scheds i) (.spawn c) = some sched →
      Move w (.evict i c k)
        { w.set i sched with frames := w.frames ++ [⟨i, c, k⟩], entries := w.entries.filter (· ≠ k) }
  | stop : Move w .stop { w with running := false, stop := .posting 0 }
  | stopAgain : Move w .stop w
  | postTask {i : Fin n} {sched : Scheduler.World} : Scheduler.step (w.scheds i) (.postTask 0 0) = some sched →
      Move w .stopNext { w.set i sched with stop := .waking i }
  | wake {i : Fin n} {sched : Scheduler.World} : Scheduler.step (w.scheds i) (.wake 0) = some sched →
      Move w .stopNext { w.set i sched with stop := .posting (i + 1) }
  | stopped : Move w .stopNext { w with stop := .returned }
  | wait : Move w .wait { w with wait := .joining 0 }
  | join {i : Fin n} : w.wait = .joining i → (w.scheds i).pc = .returned →
      Move w .waitNext { w with wait := .joining (i + 1) }
  | joined {k : Nat} : w.wait = .joining k → n ≤ k → Move w .waitNext { w with wait := .returned }
  | destroy : w.wait = .returned →
      Move w .destroy { w with gone := true, late := w.entries.filter fun k => k ∉ w.destroyed }

theorem stopNext_move (move : w.stopNext = some w') : Move w .stopNext w' := by
  unfold World.stopNext at move
  split at move
  next k =>
    split at move
    next below =>
      obtain ⟨sched, moved, rfl⟩ := Option.map_eq_some_iff.mp move
      exact .postTask moved
    next =>
      cases Option.some.inj move
      exact .stopped
  next k =>
    split at move
    next below =>
      obtain ⟨sched, moved, rfl⟩ := Option.map_eq_some_iff.mp move
      exact .wake moved
    next => cases move
  all_goals cases move

theorem waitNext_move (move : w.waitNext = some w') : Move w .waitNext w' := by
  unfold World.waitNext at move
  split at move
  next k here =>
    split at move
    next below =>
      obtain ⟨returned, moved⟩ := Option.ite_none_right_eq_some.mp move
      cases Option.some.inj moved
      exact .join (i := ⟨k, below⟩) here returned
    next beyond =>
      cases Option.some.inj move
      exact .joined here (by omega)
  all_goals cases move

theorem step_move (move : step w a = some w') : Move w a w' := by
  obtain ⟨_, move⟩ := Option.ite_none_left_eq_some.mp move
  cases a with
  | worker i b =>
    obtain ⟨_, move⟩ := Option.ite_none_left_eq_some.mp move
    obtain ⟨sched, moved, rfl⟩ := Option.map_eq_some_iff.mp move
    exact .worker moved
  | finish i =>
    simp only at move
    split at move
    next c rest sched top moved =>
      cases Option.some.inj move
      exact .finish top moved
    next => cases move
  | acceptLoop i c =>
    obtain ⟨_, move⟩ := Option.ite_none_right_eq_some.mp move
    obtain ⟨sched, moved, rfl⟩ := Option.map_eq_some_iff.mp move
    exact .acceptLoop moved
  | accept i c =>
    simp only at move
    split at move
    next conn sched here moved =>
      obtain ⟨good, move⟩ := Option.ite_none_right_eq_some.mp move
      cases Option.some.inj move
      exact .accept here good moved
    next => cases move
  | share i c k =>
    simp only at move
    split at move
    next d rest top =>
      obtain ⟨has, move⟩ := Option.ite_none_right_eq_some.mp move
      obtain ⟨sched, moved, rfl⟩ := Option.map_eq_some_iff.mp move
      exact .share has moved
    next => cases move
  | drop i k =>
    simp only at move
    split at move
    next d rest top =>
      obtain ⟨⟨user, has⟩, move⟩ := Option.ite_none_right_eq_some.mp move
      cases Option.some.inj move
      exact .drop user has
    next => cases move
  | evict i c k =>
    obtain ⟨⟨_, alive, mine⟩, move⟩ := Option.ite_none_right_eq_some.mp move
    obtain ⟨sched, moved, rfl⟩ := Option.map_eq_some_iff.mp move
    obtain ⟨conn, made, _⟩ := Option.map_eq_some_iff.mp mine
    exact .evict made alive moved
  | stop =>
    simp only at move
    split at move
    next =>
      cases Option.some.inj move
      exact .stop
    next =>
      cases Option.some.inj move
      exact .stopAgain
  | stopNext => exact stopNext_move move
  | wait =>
    obtain ⟨_, move⟩ := Option.ite_none_right_eq_some.mp move
    cases Option.some.inj move
    exact .wait
  | waitNext => exact waitNext_move move
  | destroy =>
    obtain ⟨⟨_, joined⟩, move⟩ := Option.ite_none_right_eq_some.mp move
    cases Option.some.inj move
    exact .destroy joined

end CoroNet.TcpServer.Shutdown
