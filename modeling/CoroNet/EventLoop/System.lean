import CoroNet.Coroutine.Transfer
import CoroNet.EventLoop.Handler

namespace CoroNet.EventLoop

open Coroutine (Kind Promise Fault)
open Function

/-- A coroutine handle: nobody's, of a `Task` frame by its allocation, or of
the frame of `spawn_shim` by the call of `spawn` that made it. -/
inductive Handle
  | noop
  | task (b : Nat)
  | shim (t : Nat)

/-- Where a `Task` coroutine is: at its initial suspension, on the native
stack, suspended on a child or on an awaiter of an operation, at its final
suspension. -/
inductive Point (E V : Type) (S : Kind → Type)
  | initial (k : Kind) (s : S k)
  | running
  | awaiting (child : Nat) (j k : Kind) (next : Except E (j.Ret V) → S k)
  | blocked (a : Nat) (k : Kind) (next : Answer → S k)
  | final

/-- `owner` is the call of `spawn` that the frame goes back to. -/
structure Frame (E V : Type) (S : Kind → Type) where
  promise : Promise E V
  continuation : Handle := .noop
  owner : Nat
  point : Point E V S

/-- An awaiter in the frame of the coroutine it has the handle of. -/
structure Awaiter (A : Type) where
  op : A
  handle : Nat
  result : Answer := {}

/-- A coroutine on the native stack with the state of its body. -/
structure Active (S : Kind → Type) where
  b : Nat
  k : Kind
  s : S k

/-- The coroutines of one worker: the `Task` frames, the frames of
`spawn_shim` that are alive with the `Task` that is their parameter, the
awaiters, the operations of the kernel, the ready queue and the coroutines on
the native stack, the innermost first (each of the others is in a call of
`spawn`). `started` are the tasks given to `spawn`, and `log` what the handlers
have done. A step with undefined behaviour sets `fault`. There is no submission
queue here: every suspension obtains its SQE (the full queue is in
`Scheduler.World`). -/
structure World (E V A : Type) (S : Kind → Type) where
  heap : Nat → Option (Frame E V S) := fun _ => none
  frames : Nat := 0
  shims : Nat → Option Nat := fun _ => none
  started : List (S .void) := []
  awaiters : Nat → Option (Awaiter A) := fun _ => none
  suspensions : Nat := 0
  inflight : List Nat := []
  readyQueue : List Nat := []
  stack : List (Active S) := []
  aborted : Bool := false
  log : List (Nat × Event A S) := []
  fault : Option Fault := none

variable {E V A : Type} {S : Kind → Type}

namespace World

def frame (w : World E V A S) (b : Nat) : Except Fault (Frame E V S) :=
  match w.heap b with
  | none => .error .useAfterDestroy
  | some f => .ok f

def note (w : World E V A S) (t : Nat) (e : Event A S) : World E V A S := { w with log := w.log ++ [(t, e)] }

/-- The call of a `Task` function: a new frame, suspended at once. -/
def create {k : Kind} (w : World E V A S) (owner : Nat) (s : S k) : World E V A S :=
  { w with
    heap := update w.heap w.frames (some { promise := .new k, owner := owner, point := .initial k s })
    frames := w.frames + 1 }

/-- `await_suspend` of a `Task` notes its caller, and the coroutine is resumed. -/
def enter (w : World E V A S) (child : Nat) (caller : Handle) : Except Fault (World E V A S) := do
  let f ← w.frame child
  match f.point with
  | .initial k s =>
    .ok { w with
      heap := update w.heap child (some { f with continuation := caller, point := .running })
      stack := ⟨child, k, s⟩ :: w.stack }
  | _ => .error .badResume

/-- `co_await` of a new child in the body of frame `b`. -/
def await {j k : Kind} (w : World E V A S) (b : Nat) (child : S j) (next : Except E (j.Ret V) → S k) :
    Except Fault (World E V A S) := do
  let f ← w.frame b
  let n := w.frames
  let w := w.create f.owner child
  World.enter { w with
    heap := update w.heap b (some { f with point := .awaiting n j k next })
    stack := w.stack.tail } n (.task b)

/-- The destructor of a `Task`. -/
def destroy (w : World E V A S) (b : Nat) : Except Fault (World E V A S) := do
  let f ← w.frame b
  match f.point with
  | .running => .error .badDestroy
  | _ => .ok { w with heap := update w.heap b none }

/-- The caller is resumed: it takes the outcome of its child and destroys it. -/
def resumeCaller (w : World E V A S) (p : Nat) : Except Fault (World E V A S) := do
  let f ← w.frame p
  match f.point with
  | .awaiting child j k next =>
    let awaited ← w.frame child
    let r ← awaited.promise.awaitResume j
    let w ← World.destroy { w with heap := update w.heap p (some { f with point := .running }) } child
    .ok { w with stack := ⟨p, k, next r⟩ :: w.stack }
  | _ => .error .badResume

/-- `spawn_shim` is resumed and ends, and with its frame goes the `Task` that
is its parameter; an exception ends the process. -/
def resumeShim (w : World E V A S) (t : Nat) : Except Fault (World E V A S) :=
  match w.shims t with
  | none => .error .badResume
  | some child => do
    let awaited ← w.frame child
    match ← awaited.promise.awaitResume .void with
    | .error _ => .ok { w with aborted := true }
    | .ok _ =>
      let w ← w.destroy child
      .ok { w with shims := update w.shims t none }

/-- The body of frame `b` ends: its outcome goes into the promise, and the
final suspension has the continuation resumed in its place. -/
def finish (w : World E V A S) (b : Nat) (store : Promise E V → Promise E V) : Except Fault (World E V A S) := do
  let f ← w.frame b
  let w := { w with
    heap := update w.heap b (some { f with promise := store f.promise, point := .final })
    stack := w.stack.tail }
  match f.continuation with
  | .noop => .ok w
  | .task p => w.resumeCaller p
  | .shim t => w.resumeShim t

/-- `co_await` of an operation: `await_suspend` obtains an SQE and hands the
operation to the ring. -/
def suspend {k : Kind} (w : World E V A S) (b : Nat) (op : A) (next : Answer → S k) :
    Except Fault (World E V A S) := do
  let f ← w.frame b
  .ok { w with
    heap := update w.heap b (some { f with point := .blocked w.suspensions k next })
    awaiters := update w.awaiters w.suspensions (some { op := op, handle := b })
    suspensions := w.suspensions + 1
    inflight := w.inflight ++ [w.suspensions]
    stack := w.stack.tail }

/-- `Scheduler::spawn`: `spawn_shim` is not suspended initially, and awaits its parameter. -/
def spawn (w : World E V A S) (task : S .void) : Except Fault (World E V A S) :=
  let t := w.started.length
  let n := w.frames
  let w := w.create t task
  World.enter { w with shims := update w.shims t (some n), started := w.started ++ [task] } n (.shim t)

/-- The innermost coroutine goes on, up to its next suspension or call. -/
def execute (code : Code E V A S) (w : World E V A S) : Active S → Except Fault (World E V A S)
  | ⟨b, k, s⟩ => do
    let f ← w.frame b
    match code k s with
    | .ret r => (w.note f.owner .silent).finish b fun p => p.returned k r
    | .throw e => (w.note f.owner .silent).finish b fun p => p.unhandledException e
    | .await child next => (w.note f.owner .silent).await b child next
    | .io op next => (w.note f.owner (.asks op)).suspend b op next
    | .spawn task next =>
      World.spawn { w.note f.owner (.spawns task) with stack := ⟨b, k, next⟩ :: w.stack.tail } task

/-- `h.resume()` of a handle of the ready queue that is not done. -/
def resume (w : World E V A S) (b : Nat) : Except Fault (World E V A S) := do
  let f ← w.frame b
  match f.point with
  | .final => .ok w
  | .blocked a k next =>
    match w.awaiters a with
    | none => .error .useAfterDestroy
    | some awaiter =>
      .ok { w.note f.owner (.answered awaiter.op awaiter.result) with
        heap := update w.heap b (some { f with point := .running })
        awaiters := update w.awaiters a none
        stack := [⟨b, k, next awaiter.result⟩] }
  | _ => .error .badResume

/-- `on_complete`. -/
def onComplete (w : World E V A S) (a : Nat) (r : Answer) : Except Fault (World E V A S) :=
  match w.awaiters a with
  | none => .error .useAfterDestroy
  | some awaiter => do
    let f ← w.frame awaiter.handle
    let w := { w with awaiters := update w.awaiters a (some { awaiter with result := r }) }
    match f.point with
    | .final => .ok w
    | _ => .ok { w with readyQueue := w.readyQueue ++ [awaiter.handle] }

def outcome (w : World E V A S) : Except Fault (World E V A S) → World E V A S
  | .ok next => next
  | .error f => { w with fault := some f }

end World

/-- What the worker does: the coroutine on its stack goes on; or with nothing
on the stack, in `run()`, it takes a handle from the ready queue, handles the
completion of an operation, or runs a posted task that calls `spawn`. The
order of these is left open. -/
inductive Move (S : Kind → Type)
  | execute
  | turn
  | complete (a : Nat) (r : Answer)
  | spawn (task : S .void)

/-- The task of a call of `spawn` that no handler makes. -/
def Move.posted : Move S → Option (S .void)
  | .spawn task => some task
  | _ => none

def step (code : Code E V A S) (w : World E V A S) (m : Move S) : Option (World E V A S) :=
  if w.fault.isSome || w.aborted then none
  else match w.stack, m with
    | x :: _, .execute => some (w.outcome (w.execute code x))
    | [], .turn =>
      match w.readyQueue with
      | [] => none
      | b :: rest => some (w.outcome (World.resume { w with readyQueue := rest } b))
    | [], .complete a r =>
      if a ∈ w.inflight then some (w.outcome (World.onComplete { w with inflight := w.inflight.erase a } a r)) else none
    | [], .spawn task => some (w.outcome (w.spawn task))
    | _, _ => none

namespace World

variable {w : World E V A S} {j k : Kind} {b p t : Nat} {f g : Frame E V S}

/-- The child is executing, and its caller waits for it. -/
def awaited (w : World E V A S) (b : Nat) (f : Frame E V S) (child : S j) (next : Except E (j.Ret V) → S k) :
    World E V A S :=
  { w with
    heap := update (update w.heap b (some { f with point := .awaiting w.frames j k next })) w.frames
      (some { promise := .new j, continuation := .task b, owner := f.owner, point := .running })
    frames := w.frames + 1
    stack := ⟨w.frames, j, child⟩ :: w.stack.tail }

theorem await_eq {child : S j} {next : Except E (j.Ret V) → S k} (here : w.heap b = some f) (apart : b ≠ w.frames) :
    w.await b child next = .ok (w.awaited b f child next) := by
  simp [await, enter, frame, create, here, update_of_ne apart.symm, update_comm apart, bind, Except.bind, awaited]

/-- The caller goes on, and its child is gone. -/
def continued (w : World E V A S) (b p : Nat) (g : Frame E V S) (s : S k) : World E V A S :=
  { w with
    heap := update (update w.heap p (some { g with point := .running })) b none
    stack := ⟨p, k, s⟩ :: w.stack.tail }

theorem finish_caller {next : Except E (j.Ret V) → S k} (result : Except E (j.Ret V)) (here : w.heap b = some f)
    (promise : f.promise = .new j) (continuation : f.continuation = .task p) (caller : w.heap p = some g)
    (waits : g.point = .awaiting b j k next) (apart : p ≠ b) :
    w.finish b (fun promise => promise.store j result) = .ok (w.continued b p g (next result)) := by
  simp [finish, frame, here, continuation, resumeCaller, update_of_ne apart, caller, waits, promise,
    Coroutine.Promise.awaitResume_store, destroy, update_comm apart, update_of_ne apart.symm, bind, Except.bind,
    continued]

/-- The handler has returned. -/
def returned (w : World E V A S) (b t : Nat) : World E V A S :=
  { w with heap := update w.heap b none, shims := update w.shims t none, stack := w.stack.tail }

theorem finish_returned (here : w.heap b = some f) (promise : f.promise = .new .void)
    (continuation : f.continuation = .shim t) (shim : w.shims t = some b) :
    w.finish b (fun promise => promise.store .void (.ok ())) = .ok (w.returned b t) := by
  simp [finish, frame, here, continuation, resumeShim, shim, promise, Coroutine.Promise.awaitResume_store, destroy,
    bind, Except.bind, returned]

/-- An exception has come out of the handler. -/
def threw (w : World E V A S) (b : Nat) (f : Frame E V S) (e : E) : World E V A S :=
  { w with
    heap := update w.heap b (some { f with promise := f.promise.store .void (.error e), point := .final })
    stack := w.stack.tail
    aborted := true }

theorem finish_threw {e : E} (here : w.heap b = some f) (promise : f.promise = .new .void)
    (continuation : f.continuation = .shim t) (shim : w.shims t = some b) :
    w.finish b (fun promise => promise.store .void (.error e)) = .ok (w.threw b f e) := by
  simp [finish, frame, here, continuation, resumeShim, shim, promise, Coroutine.Promise.awaitResume_store, bind,
    Except.bind, threw]

/-- The coroutine is suspended on an operation. -/
def suspended (w : World E V A S) (b : Nat) (f : Frame E V S) (op : A) (next : Answer → S k) : World E V A S :=
  { w with
    heap := update w.heap b (some { f with point := .blocked w.suspensions k next })
    awaiters := update w.awaiters w.suspensions (some { op := op, handle := b })
    suspensions := w.suspensions + 1
    inflight := w.inflight ++ [w.suspensions]
    stack := w.stack.tail }

theorem suspend_eq {op : A} {next : Answer → S k} (here : w.heap b = some f) :
    w.suspend b op next = .ok (w.suspended b f op next) := by
  simp [suspend, frame, here, bind, Except.bind, suspended]

/-- A new handler is executing in the call of `spawn`. -/
def spawned (w : World E V A S) (task : S .void) : World E V A S :=
  { w with
    heap := update w.heap w.frames (some
      { promise := .new .void, continuation := .shim w.started.length, owner := w.started.length, point := .running })
    frames := w.frames + 1
    shims := update w.shims w.started.length (some w.frames)
    started := w.started ++ [task]
    stack := ⟨w.frames, .void, task⟩ :: w.stack }

theorem spawn_eq (task : S .void) : w.spawn task = .ok (w.spawned task) := by
  simp [spawn, enter, frame, create, bind, Except.bind, spawned]

/-- The coroutine goes on with the result its awaiter holds. -/
def answered (w : World E V A S) (others : List Nat) (b a : Nat) (f : Frame E V S) (next : Answer → S k)
    (awaiter : Awaiter A) : World E V A S :=
  { w.note f.owner (.answered awaiter.op awaiter.result) with
    heap := update w.heap b (some { f with point := .running })
    readyQueue := others
    awaiters := update w.awaiters a none
    stack := [⟨b, k, next awaiter.result⟩] }

theorem resume_eq {a : Nat} {next : Answer → S k} {awaiter : Awaiter A} {others : List Nat} (here : w.heap b = some f)
    (point : f.point = .blocked a k next) (made : w.awaiters a = some awaiter) :
    World.resume { w with readyQueue := others } b = .ok (w.answered others b a f next awaiter) := by
  simp [resume, frame, here, point, made, bind, Except.bind, answered, note]

/-- The operation is complete, and its coroutine is ready. -/
def completed (w : World E V A S) (a : Nat) (awaiter : Awaiter A) (r : Answer) : World E V A S :=
  { w with
    awaiters := update w.awaiters a (some { awaiter with result := r })
    inflight := w.inflight.erase a
    readyQueue := w.readyQueue ++ [awaiter.handle] }

theorem onComplete_eq {a : Nat} {next : Answer → S k} {awaiter : Awaiter A} {r : Answer}
    (made : w.awaiters a = some awaiter) (here : w.heap awaiter.handle = some f) (point : f.point = .blocked a k next) :
    World.onComplete { w with inflight := w.inflight.erase a } a r = .ok (w.completed a awaiter r) := by
  simp [onComplete, made, frame, here, point, bind, Except.bind, completed]

end World

end CoroNet.EventLoop
