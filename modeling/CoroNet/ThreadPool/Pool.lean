import CoroNet.General.Runs
import Mathlib.Logic.Function.Basic

namespace CoroNet.CoroThreadPool

open Function

/-- Where a worker is in `worker_loop`: before it takes the mutex, holding it
before the test of the wait predicate, holding it with the predicate false and
about to block, on the condition variable, notified and before it takes the
mutex again, holding it with the predicate true, in a task, past the end. -/
inductive Worker
  | top
  | testing
  | committed
  | blocked
  | woken
  | passed
  | running (task : Nat)
  | exited
deriving DecidableEq

/-- Where the thread that calls `stop` is. -/
inductive Stop
  | ready
  | stored
  | notified
  | joined
deriving DecidableEq

/-- The pool after `start` has returned, with its `n` workers; a task is named
by a number. `mutex` is the worker that holds `mu_`; a producer holds it only
within its step. `owing` are the calls of `enqueue` that have pushed and not
yet notified, `done` the tasks that have been run. `fault` is set by a `front`
of an empty queue. -/
structure World (n : Nat) where
  workers : Fin n → Worker := fun _ => .top
  mutex : Option (Fin n) := none
  queue : List Nat := []
  stopping : Bool := false
  stop : Stop := .ready
  owing : Nat := 0
  done : List Nat := []
  fault : Bool := false

/-- A worker takes the mutex, tests the predicate, blocks, is woken for no
reason, leaves the wait and takes a task, finishes it; a producer pushes and
notifies one worker; `stop` stores, notifies all and joins. -/
inductive Act (n : Nat)
  | acquire (i : Fin n)
  | test (i : Fin n)
  | block (i : Fin n)
  | spurious (i : Fin n)
  | take (i : Fin n)
  | finish (i : Fin n) (threw : Bool)
  | push (task : Nat)
  | notifyOne (i : Option (Fin n))
  | store
  | notifyAll
  | join

variable {n : Nat}

namespace World

def set (w : World n) (i : Fin n) (worker : Worker) : World n :=
  { w with workers := update w.workers i worker }

/-- The predicate of the wait. -/
def ready (w : World n) : Bool := !w.queue.isEmpty || w.stopping

/-- After the wait: leave, or take the front of the queue. -/
def take (w : World n) (i : Fin n) : World n :=
  if w.stopping && w.queue.isEmpty then { w.set i .exited with mutex := none }
  else match w.queue with
    | [] => { w with fault := true }
    | task :: rest => { w.set i (.running task) with queue := rest, mutex := none }

/-- All that wait go on. -/
def wakeAll (w : World n) : World n :=
  { w with workers := fun i => if w.workers i = .blocked then .woken else w.workers i }

end World

def step (w : World n) (a : Act n) : Option (World n) :=
  if w.fault then none
  else match a with
    | .acquire i =>
      if (w.workers i = .top ∨ w.workers i = .woken) ∧ w.mutex = none then
        some { w.set i .testing with mutex := some i }
      else none
    | .test i =>
      if w.workers i = .testing then some (w.set i (if w.ready then .passed else .committed)) else none
    | .block i =>
      if w.workers i = .committed then some { w.set i .blocked with mutex := none } else none
    | .spurious i => if w.workers i = .blocked then some (w.set i .woken) else none
    | .take i => if w.workers i = .passed then some (w.take i) else none
    | .finish i _ =>
      -- an exception of the task is caught and logged
      match w.workers i with
      | .running task => some { w.set i .top with done := w.done ++ [task] }
      | _ => none
    | .push task =>
      if w.mutex = none then some { w with queue := w.queue ++ [task], owing := w.owing + 1 } else none
    | .notifyOne i =>
      if w.owing = 0 then none
      else match i with
        | some i =>
          if w.workers i = .blocked then some { w.set i .woken with owing := w.owing - 1 } else none
        | none =>
          if ∀ i, w.workers i ≠ .blocked then some { w with owing := w.owing - 1 } else none
    | .store => if w.stop = .ready then some { w with stopping := true, stop := .stored } else none
    | .notifyAll => if w.stop = .stored then some { w.wakeAll with stop := .notified } else none
    | .join =>
      if w.stop = .notified ∧ ∀ i, w.workers i = .exited then some { w with stop := .joined } else none

/-- The pool when `start` returns. -/
def start (n : Nat) : World n := {}

/-- A worker sleeps, or is about to, after `stop` has notified, with nothing
in the queue and no notification on its way. -/
def Stranded (w : World n) : Prop :=
  (w.stop = .notified ∨ w.stop = .joined) ∧ w.stopping = true ∧ w.queue = [] ∧ w.owing = 0 ∧
    ∃ i, w.workers i = .blocked ∨ w.workers i = .committed

end CoroNet.CoroThreadPool
