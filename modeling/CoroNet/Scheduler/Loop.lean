import CoroNet.General.Runs
import CoroNet.Scheduler.Ring
import Mathlib.Logic.Function.Basic

namespace CoroNet.Scheduler

open Function

/-- A coroutine handle; null or a coroutine. -/
abbrev Handle := Option Nat

/-- A function given to `post_task`, named by a number. -/
abbrev Task := Nat

/-- The awaiters of `ops/`, with what their constructors are given and, for
the buffer, the `writableBytes()` after `ensureWritableBytes`. -/
inductive IoAwaiter
  | recv (fd : Int) (len : Nat)
  | recvIntoBuffer (fd : Int) (writable : Nat)
  | recvFixed (fd : Int) (len : Nat) (bufIndex : Int)
  | send (fd : Int) (len : Nat)
  | sendFixed (fd : Int) (len : Nat) (bufIndex : Int)
  | accept (listenFd : Int)
  | timeout (ns : Int)
  | shutdown (fd : Int) (how : Nat)

/-- Linux's value of `MSG_NOSIGNAL`. -/
def msgNosignal : Nat := 0x4000

/-- Linux's value of `SHUT_RDWR`. -/
def shutRdwr : Nat := 2

/-- The preparation call in each `await_suspend`. -/
def IoAwaiter.prep : IoAwaiter → Opcode
  | .recv fd len => .recv fd len
  | .recvIntoBuffer fd writable => .recv fd writable
  | .recvFixed fd len bufIndex => .readFixed fd len bufIndex
  | .send fd len => .send fd len msgNosignal
  | .sendFixed fd len bufIndex => .writeFixed fd len bufIndex
  | .accept listenFd => .accept listenFd
  | .timeout ns => .timeout (ns.tdiv 1000000000) (ns.tmod 1000000000)
  | .shutdown fd how => .shutdown fd how

/-- The descriptor an awaiter was given. -/
def IoAwaiter.fd : IoAwaiter → Option Int
  | .recv fd _ | .recvIntoBuffer fd _ | .recvFixed fd _ _ | .send fd _ | .sendFixed fd _ _ | .accept fd
  | .shutdown fd _ => some fd
  | .timeout _ => none

/-- The completion of `RecvIntoBufferAwaiter` calls `hasWritten`. -/
def IoAwaiter.hasBuffer : IoAwaiter → Bool
  | .recvIntoBuffer .. => true
  | _ => false

/-- An awaiter in the frame of a suspended coroutine. -/
structure Awaiter where
  op : IoAwaiter
  handle : Nat
  result : Int := 0
  cqeFlags : Nat := 0

/-- A coroutine: not created, on the call stack of the worker, suspended on
an I/O awaiter, suspended on something that will post its handle, at its end. -/
inductive Coro
  | absent
  | running
  | suspended (a : Nat)
  | parked
  | done
deriving DecidableEq

/-- Where the worker is in `run()`. `tasks` is the second loop of
`drain_cross_queue`, `ready` the loop over `ready_`, `batch i n` the loop over
the `n` completions of a batch; `inTask`, `inCoro` and `inTimer` are inside a
task, a resumed coroutine and the timer callbacks. -/
inductive Pc
  | created
  | entered
  | cleared
  | watching
  | loop
  | draining
  | tasks (rest : List Task)
  | inTask (rest : List Task)
  | ready
  | inCoro
  | check
  | submitting
  | waiting
  | batch (i n : Nat)
  | inTimer (i n : Nat)
  | leaving
  | returned
  | threw
deriving DecidableEq

inductive Fault
  | nullSqe
  | useAfterFree
  | badResume
deriving DecidableEq

/-- An element of `cross_` and the foreign thread that pushed it, none for a
task that was queued before the threads were started. -/
structure Pushed (α : Type) where
  owner : Option Nat
  item : α

/-- A `Scheduler`, its worker, the coroutines and awaiters on it, the foreign
threads (whether each owes the eventfd a write), and what has happened: pushes
to `cross_`, handles drained (with whether they went to `ready_`), tasks
drained, tasks run, completions posted for awaiters, results handed out by
`await_resume`, bytes credited to buffers, and the foreign thread that set
`stopping_`. A step with undefined behaviour sets `fault`. -/
structure World where
  ring : Ring
  readyQueue : List Handle := []
  stopping : Bool := false
  handles : List (Pushed Handle) := []
  tasks : List (Pushed Task) := []
  wakeCount : Nat := 0
  pc : Pc := .created
  stack : List Nat := []
  coros : Nat → Coro := fun _ => .absent
  awaiters : Nat → Option Awaiter := fun _ => none
  suspensions : Nat := 0
  owes : Nat → Bool := fun _ => false
  pushedHandles : List (Pushed Handle) := []
  pushedTasks : List (Pushed Task) := []
  drained : List (Pushed Handle × Bool) := []
  drainedTasks : List (Pushed Task) := []
  ran : List Task := []
  posted : List (Nat × Int) := []
  resumed : List (Nat × Int) := []
  written : List (Nat × Int) := []
  stopper : Option Nat := none
  fault : Option Fault := none

namespace World

/-- `h && !h.done()`. -/
def resumable (w : World) : Handle → Bool
  | none => false
  | some c => decide (w.coros c ≠ .done)

/-- The watchers arm themselves if they get an SQE. -/
def rearm (w : World) (watcher : UserData) : World :=
  { w with ring := (w.ring.getSqe ⟨.read 8, watcher⟩).getD w.ring }

/-- The locked swap of `drain_cross_queue` and its first loop. -/
def drain (w : World) : World :=
  { w with
    handles := []
    tasks := []
    readyQueue := w.readyQueue ++ (w.handles.map Pushed.item).filter w.resumable
    drained := w.drained ++ w.handles.map fun p => (p, w.resumable p.item)
    drainedTasks := w.drainedTasks ++ w.tasks
    pc := .tasks (w.tasks.map Pushed.item) }

/-- `await_resume`: the coroutine goes on with the result, and the awaiter is gone. -/
def handOut (w : World) (c a : Nat) (result : Int) : World :=
  { w with
    coros := update w.coros c .running
    awaiters := update w.awaiters a none
    resumed := w.resumed ++ [(a, result)]
    stack := [c]
    pc := .inCoro }

/-- `h.resume()` of a coroutine of the ready queue; one that was suspended on
an awaiter takes its result along. -/
def resume (w : World) (c : Nat) : World :=
  match w.coros c with
  | .suspended a =>
    match w.awaiters a with
    | some awaiter => w.handOut c a awaiter.result
    | none => { w with fault := some .useAfterFree }
  | .parked => { w with coros := update w.coros c .running, stack := [c], pc := .inCoro }
  | .done => w
  | .absent | .running => { w with fault := some .badResume }

/-- One turn of the loop over `ready_`. -/
def turn (w : World) : World :=
  match w.readyQueue with
  | [] => { w with pc := .check }
  | none :: rest => { w with readyQueue := rest }
  | some c :: rest => World.resume { w with readyQueue := rest } c

/-- `on_complete` of the awaiters; the one with a buffer credits it first. -/
def onComplete (w : World) (a : Nat) (res : Int) (flags : Nat) : World :=
  match w.awaiters a with
  | none => { w with fault := some .useAfterFree }
  | some awaiter =>
    { w with
      awaiters := update w.awaiters a (some { awaiter with result := res, cqeFlags := flags })
      written := w.written ++ if awaiter.op.hasBuffer ∧ 0 < res then [(a, res)] else []
      readyQueue :=
        if w.resumable (some awaiter.handle) then w.readyQueue ++ [some awaiter.handle] else w.readyQueue }

/-- The loop over a batch: completion `i`, or `cq_advance` after the last. -/
def process (w : World) (i n : Nat) : World :=
  if i < n then
    match w.ring.cq[i]? with
    | none => w
    | some cqe =>
      match cqe.userData with
      | .null => { w with pc := .batch (i + 1) n }
      | .eventfd => { w.rearm .eventfd with pc := .batch (i + 1) n }
      | .timerfd =>
        -- an error is logged and the watcher armed again
        if 0 ≤ cqe.res then { w with pc := .inTimer i n }
        else { w.rearm .timerfd with pc := .batch (i + 1) n }
      | .awaiter a => { w.onComplete a cqe.res cqe.flags with pc := .batch (i + 1) n }
  else { w with ring := w.ring.cqAdvance n, pc := .loop }

/-- The next step of `run()`; none inside user code, while it is blocked and after its end. -/
def next (w : World) : Option World :=
  match w.pc with
  | .created => some { w with pc := .entered }
  | .entered => some { w with stopping := false, stopper := none, pc := .cleared }
  | .cleared => some { w.rearm .eventfd with pc := .watching }
  | .watching => some { w.rearm .timerfd with pc := .loop }
  | .loop => some { w with pc := if w.stopping then .leaving else .draining }
  | .draining => some w.drain
  | .tasks [] => some { w with pc := .ready }
  | .tasks (f :: rest) => some { w with ran := w.ran ++ [f], pc := .inTask rest }
  | .ready => some w.turn
  | .check => some { w with pc := if w.stopping then .leaving else .submitting }
  | .submitting => some { w with ring := w.ring.submit, pc := .waiting }
  | .waiting =>
    if w.ring.cq.isEmpty then none else some { w with pc := .batch 0 (w.ring.peekBatchCqe 64) }
  | .batch i n => some (w.process i n)
  | .leaving => some { w with pc := .returned }
  | .inTask _ | .inCoro | .inTimer .. | .returned | .threw => none

/-- Tasks, coroutines and timer callbacks run on the worker, where
`tls_current_` is this scheduler. -/
def userCode (w : World) : Bool :=
  match w.pc with
  | .inTask _ | .inCoro | .inTimer .. => true
  | _ => false

/-- The user code has come back to the loop. -/
def ret (w : World) : Option World :=
  match w.stack, w.pc with
  | [], .inTask rest => some { w with pc := .tasks rest }
  | [], .inCoro => some { w with pc := .ready }
  | [], .inTimer i n => some { w.rearm .timerfd with pc := .batch (i + 1) n }
  | _, _ => none

/-- The coroutine goes off the stack, suspended on a new awaiter. -/
def suspendOn (w : World) (ring : Ring) (op : IoAwaiter) (c : Nat) (rest : List Nat) : World :=
  { w with
    ring := ring
    coros := update w.coros c (.suspended w.suspensions)
    awaiters := update w.awaiters w.suspensions (some { op := op, handle := c })
    suspensions := w.suspensions + 1
    stack := rest }

/-- The `await_suspend` of the awaiters: fill an SQE, tag it, and the
coroutine goes off the stack. A null SQE is written to all the same. -/
def awaitSuspend (w : World) (op : IoAwaiter) (c : Nat) (rest : List Nat) : World :=
  match w.ring.getSqe ⟨op.prep, .awaiter w.suspensions⟩ with
  | none => { w with fault := some .nullSqe }
  | some ring => w.suspendOn ring op c rest

/-- `stop` on the worker's own thread. -/
def selfStop (w : World) : World :=
  if w.stopping then w
  else { w with
    stopping := true
    ring := match w.ring.getSqe ⟨.nop, .null⟩ with
      | some ring => ring.submit
      | none => w.ring }

/-- The first half of a foreign `stop`. -/
def stop (w : World) (t : Nat) : World :=
  if w.stopping then w else { w with stopping := true, stopper := some t, owes := update w.owes t true }

/-- The write of `wake_remote`; at its largest the counter stays. -/
def wake (w : World) (t : Nat) : World :=
  { w with
    wakeCount := if w.wakeCount < 2 ^ 64 - 2 then w.wakeCount + 1 else w.wakeCount
    owes := update w.owes t false }

/-- The kernel completes the operation `k`. A read of the eventfd waits for a
positive counter and takes it all. -/
def complete (w : World) (k : Nat) (res : Int) (flags : Nat) : Option World :=
  match w.ring.inflight[k]? with
  | none => none
  | some sqe =>
    match sqe.userData with
    | .eventfd =>
      if 0 < w.wakeCount then some { w with ring := w.ring.complete k ⟨.eventfd, 8, flags⟩, wakeCount := 0 }
      else none
    | .awaiter a =>
      some { w with ring := w.ring.complete k ⟨.awaiter a, res, flags⟩, posted := w.posted ++ [(a, res)] }
    | data => some { w with ring := w.ring.complete k ⟨data, res, flags⟩ }

end World

/-- The worker goes on; its wait is interrupted; its submission fails. User
code on the worker starts a coroutine, which suspends on an awaiter, on
something else or ends, posts to its own scheduler, stops it, comes back or
throws. A foreign thread posts, posts a task, stops, and writes to the
eventfd. A task is queued before the start. The kernel consumes an SQE and
completes an operation. -/
inductive Act
  | next
  | interrupt
  | fail
  | spawn (c : Nat)
  | suspend (op : IoAwaiter)
  | park
  | finish
  | selfPost (h : Handle)
  | selfStop
  | ret
  | raise
  | queueBootTask (f : Task)
  | post (t : Nat) (h : Handle)
  | postTask (t : Nat) (f : Task)
  | stop (t : Nat)
  | wake (t : Nat)
  | consume
  | complete (k : Nat) (res : Int) (flags : Nat)

def step (w : World) (a : Act) : Option World :=
  if w.fault.isSome then none
  else match a with
    | .next => w.next
    | .interrupt =>
      match w.pc with
      | .waiting => some { w with pc := .batch 0 (w.ring.peekBatchCqe 64) }
      | _ => none
    | .fail =>
      match w.pc with
      | .waiting => some { w with pc := .threw }
      | _ => none
    | .spawn c =>
      if w.userCode ∧ w.coros c = .absent then
        some { w with coros := update w.coros c .running, stack := c :: w.stack }
      else none
    | .suspend op =>
      match w.stack with
      | c :: rest => if w.userCode then some (w.awaitSuspend op c rest) else none
      | [] => none
    | .park =>
      match w.stack with
      | c :: rest => if w.userCode then some { w with coros := update w.coros c .parked, stack := rest } else none
      | [] => none
    | .finish =>
      match w.stack with
      | c :: rest => if w.userCode then some { w with coros := update w.coros c .done, stack := rest } else none
      | [] => none
    | .selfPost h => if w.userCode then some { w with readyQueue := w.readyQueue ++ [h] } else none
    | .selfStop => if w.userCode then some w.selfStop else none
    | .ret => w.ret
    | .raise =>
      match w.stack, w.pc with
      | [], .inTask _ => some { w with pc := .threw }
      | _, _ => none
    | .queueBootTask f =>
      match w.pc with
      | .created =>
        some { w with tasks := w.tasks ++ [⟨none, f⟩], pushedTasks := w.pushedTasks ++ [⟨none, f⟩] }
      | _ => none
    | .post t h =>
      if w.owes t then none
      else some { w with
        handles := w.handles ++ [⟨some t, h⟩]
        pushedHandles := w.pushedHandles ++ [⟨some t, h⟩]
        owes := update w.owes t true }
    | .postTask t f =>
      if w.owes t then none
      else some { w with
        tasks := w.tasks ++ [⟨some t, f⟩]
        pushedTasks := w.pushedTasks ++ [⟨some t, f⟩]
        owes := update w.owes t true }
    | .stop t => if w.owes t then none else some (w.stop t)
    | .wake t => if w.owes t then some (w.wake t) else none
    | .consume => w.ring.consume.map fun ring => { w with ring := ring }
    | .complete k res flags => w.complete k res flags

/-- A new scheduler over a ring of the given size. -/
def start (entries : Nat) (sqpoll : Bool) : World := { ring := { entries := entries, sqpoll := sqpoll } }

end CoroNet.Scheduler
