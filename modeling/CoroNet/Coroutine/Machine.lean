import CoroNet.Coroutine.Body
import CoroNet.General.Runs
import Mathlib.Logic.Function.Basic

namespace CoroNet.Coroutine

open Function

inductive Fault
  | useAfterDestroy
  | badResume
  | badDestroy
  | badVariant
  | notDone
deriving DecidableEq

inductive Variant (E V : Type)
  | monostate
  | value (v : V)
  | exception (e : E)

/-- The `result_` of a `TaskPromise<T>`, the `exception_` of a `TaskPromise<void>`. -/
inductive Promise (E V : Type)
  | task (result : Variant E V)
  | taskVoid (exception : Option E)

variable {E V : Type} {k : Kind}

namespace Promise

def new : Kind → Promise E V
  | .value => .task .monostate
  | .void => .taskVoid none

/-- `return_value` and `return_void`. -/
def returned (p : Promise E V) : (k : Kind) → k.Ret V → Promise E V
  | .value, v => .task (.value v)
  | .void, _ => p

def unhandledException (p : Promise E V) (e : E) : Promise E V :=
  match p with
  | .task _ => .task (.exception e)
  | .taskVoid _ => .taskVoid (some e)

/-- What `await_resume` of a `Task` of the kind returns or rethrows. -/
def awaitResume (p : Promise E V) : (k : Kind) → Except Fault (Except E (k.Ret V))
  | .value =>
    match p with
    | .task (.exception e) => .ok (.error e)
    | .task (.value v) => .ok (.ok v)
    | _ => .error .badVariant
  | .void =>
    match p with
    | .taskVoid (some e) => .ok (.error e)
    | .taskVoid none => .ok (.ok ())
    | .task _ => .error .badVariant

end Promise

/-- Where a `Task` coroutine is: at its initial suspension, on the native
stack, suspended in a `co_await`, at its final suspension. -/
inductive Point (E V : Type)
  | initial (k : Kind) (body : Body E V k)
  | running
  | awaiting (child : Nat) (j k : Kind) (next : Except E (j.Ret V) → Body E V k)
  | final

structure Frame (E V : Type) where
  promise : Promise E V
  continuation : Handle := .noop
  point : Point E V

/-- `handle_.done()`. -/
def Frame.done (f : Frame E V) : Bool :=
  match f.point with
  | .final => true
  | _ => false

def Frame.suspended (f : Frame E V) : Bool :=
  match f.point with
  | .running => false
  | _ => true

/-- The frame of `spawn_shim`. -/
inductive Shim
  | absent
  | running
  | awaiting (child : Nat)
  | destroyed

/-- Who runs the root: code that resumes its handle once and reads the
result, or `Scheduler::spawn`. -/
inductive Driver
  | resume (k : Kind)
  | spawn

/-- What is executed next: the coroutine whose handle is resumed, a body, the
parts of a `co_await` around the suspension, the end of the full expression
with its temporary `Task`, the final suspension; then the code of the
drivers, up to the end or the abort of the process. -/
inductive Control (E V : Type)
  | resume (h : Handle)
  | body (b : Nat) (k : Kind) (code : Body E V k)
  | coAwait (b child : Nat) (j k : Kind) (next : Except E (j.Ret V) → Body E V k)
  | awaitResume (b child : Nat) (j k : Kind) (next : Except E (j.Ret V) → Body E V k)
  | endExpression (b child : Nat) (k : Kind) (code : Body E V k)
  | finalSuspend (b : Nat)
  | returned
  | dropRoot (result : Except E (Option V))
  | spawn
  | shimAwait
  | shimResume (child : Nat)
  | shimReturn
  | shimLeave
  | spawned
  | ended (result : Except E (Option V))
  | aborted

/-- The heap of coroutine frames with the number of frames made, the
coroutines active on the native stack, the innermost first, the `Task`
parameters of `spawn` and of `spawn_shim`, and what has happened. A step with
undefined behaviour sets `fault`. -/
structure Machine (E V : Type) where
  driver : Driver
  heap : Nat → Option (Frame E V) := fun _ => none
  frames : Nat := 0
  stack : List Handle := []
  control : Control E V
  shim : Shim := .absent
  task : Option Nat := none
  param : Option Nat := none
  log : List (Event E V) := []
  fault : Option Fault := none

namespace Machine

def fail (m : Machine E V) (f : Fault) : Machine E V := { m with fault := some f }

/-- The handle of a `Task` coroutine is resumed. -/
def resumeTask (m : Machine E V) (b : Nat) : Machine E V :=
  match m.heap b with
  | none => m.fail .useAfterDestroy
  | some frame =>
    match frame.point with
    | .initial k body =>
      { m with
        heap := update m.heap b (some { frame with point := .running })
        stack := .task b :: m.stack
        control := .body b k body
        log := m.log ++ [.started (.task b)] }
    | .awaiting child j k next =>
      { m with
        heap := update m.heap b (some { frame with point := .running })
        stack := .task b :: m.stack
        control := .awaitResume b child j k next }
    | .running | .final => m.fail .badResume

def resumeShim (m : Machine E V) : Machine E V :=
  match m.shim with
  | .awaiting child => { m with shim := .running, stack := .shim :: m.stack, control := .shimResume child }
  | _ => m.fail .badResume

/-- The call of a `Task` function: a new frame, suspended at once. -/
def create (m : Machine E V) {j k : Kind} (b : Nat) (child : Body E V j) (next : Except E (j.Ret V) → Body E V k) :
    Machine E V :=
  { m with
    heap := update m.heap m.frames (some { promise := .new j, point := .initial j child })
    frames := m.frames + 1
    control := .coAwait b m.frames j k next
    log := m.log ++ [.created (.task m.frames)] }

/-- `co_await` of a `Task`: `await_ready`, then the coroutine is suspended and
`await_suspend` has the child resumed. -/
def coAwait (m : Machine E V) (b child : Nat) (j k : Kind) (next : Except E (j.Ret V) → Body E V k) : Machine E V :=
  match m.heap b, m.heap child with
  | some frame, some awaited =>
    if awaited.done then { m with control := .awaitResume b child j k next }
    else { m with
      heap := update (update m.heap b (some { frame with point := .awaiting child j k next })) child
        (some { awaited with continuation := .task b })
      stack := m.stack.tail
      control := .resume (.task child)
      log := m.log ++ [.awaited (.task b) child] }
  | _, _ => m.fail .useAfterDestroy

def awaitResume (m : Machine E V) (b child : Nat) (j k : Kind) (next : Except E (j.Ret V) → Body E V k) :
    Machine E V :=
  match m.heap child with
  | none => m.fail .useAfterDestroy
  | some awaited =>
    match awaited.promise.awaitResume j with
    | .error f => m.fail f
    | .ok r =>
      { m with
        control := .endExpression b child k (next r)
        log := m.log ++ [.continued (.task b) child (j.erase r)] }

/-- The destructor of a `Task` that has a handle, and where control goes then. -/
def destroy (m : Machine E V) (b : Nat) (control : Control E V) : Machine E V :=
  match m.heap b with
  | none => m.fail .useAfterDestroy
  | some frame =>
    if frame.suspended then
      { m with heap := update m.heap b none, control := control, log := m.log ++ [.destroyed (.task b)] }
    else m.fail .badDestroy

/-- The body ends and its outcome goes into the promise. -/
def settle (m : Machine E V) (b : Nat) (store : Promise E V → Promise E V) : Machine E V :=
  match m.heap b with
  | none => m.fail .useAfterDestroy
  | some frame =>
    { m with
      heap := update m.heap b (some { frame with promise := store frame.promise })
      control := .finalSuspend b }

/-- The `FinalAwaiter` has the continuation resumed. -/
def finalSuspend (m : Machine E V) (b : Nat) : Machine E V :=
  match m.heap b with
  | none => m.fail .useAfterDestroy
  | some frame =>
    { m with
      heap := update m.heap b (some { frame with point := .final })
      stack := m.stack.tail
      control := .resume frame.continuation
      log := m.log ++ [.finished b] }

/-- The driver reads the result of the root, which has to be done. -/
def readRoot (m : Machine E V) (k : Kind) : Machine E V :=
  match m.heap 0 with
  | none => m.fail .useAfterDestroy
  | some root =>
    if root.done then
      match root.promise.awaitResume k with
      | .error f => m.fail f
      | .ok r => { m with control := .dropRoot (k.erase r) }
    else m.fail .notDone

/-- `spawn` moves its `Task` into the parameter of `spawn_shim`, whose frame
does not suspend initially. -/
def callShim (m : Machine E V) : Machine E V :=
  { m with
    param := m.task
    task := none
    shim := .running
    stack := .shim :: m.stack
    control := .shimAwait
    log := m.log ++ [.created .shim, .started .shim] }

def shimAwait (m : Machine E V) : Machine E V :=
  match m.param.bind fun child => (m.heap child).map fun awaited => (child, awaited) with
  | none => m.fail .useAfterDestroy
  | some (child, awaited) =>
    if awaited.done then { m with control := .shimResume child }
    else { m with
      heap := update m.heap child (some { awaited with continuation := .shim })
      shim := .awaiting child
      stack := m.stack.tail
      control := .resume (.task child)
      log := m.log ++ [.awaited .shim child] }

/-- `spawn_shim` goes on to its end, but an exception that comes out of the
`Task` ends up in the `unhandled_exception` of `FireAndForget`, which logs it
as fatal and aborts. -/
def shimOutcome : Except E (Kind.void.Ret V) → Control E V
  | .ok _ => .shimReturn
  | .error _ => .aborted

def shimResume (m : Machine E V) (child : Nat) : Machine E V :=
  match m.heap child with
  | none => m.fail .useAfterDestroy
  | some awaited =>
    match awaited.promise.awaitResume .void with
    | .error f => m.fail f
    | .ok r =>
      { m with
        control := shimOutcome r
        log := m.log ++ [.continued .shim child (Kind.void.erase r)] }

/-- The frame of `spawn_shim` does not suspend finally; its parameter is destroyed with it. -/
def shimReturn (m : Machine E V) : Machine E V :=
  match m.param with
  | none => { m with control := .shimLeave }
  | some b => m.destroy b .shimLeave

def shimLeave (m : Machine E V) : Machine E V :=
  { m with
    param := none
    shim := .destroyed
    stack := m.stack.tail
    control := .spawned
    log := m.log ++ [.destroyed .shim] }

/-- `spawn` returns; the `Task` it was given has been moved from. -/
def leaveSpawn (m : Machine E V) : Machine E V :=
  match m.task with
  | none => { m with control := .ended (.ok none) }
  | some b => m.destroy b (.ended (.ok none))

/-- What the machine does next; nothing at its ends. -/
def next (m : Machine E V) : Option (Machine E V) :=
  match m.control with
  | .resume .noop => some { m with control := .returned }
  | .resume (.task b) => some (m.resumeTask b)
  | .resume .shim => some m.resumeShim
  | .body b k (.ret r) => some (m.settle b fun p => p.returned k r)
  | .body b _ (.throw e) => some (m.settle b fun p => p.unhandledException e)
  | .body b _ (.await child next) => some (m.create b child next)
  | .coAwait b child j k next => some (m.coAwait b child j k next)
  | .awaitResume b child j k next => some (m.awaitResume b child j k next)
  | .endExpression b child k code => some (m.destroy child (.body b k code))
  | .finalSuspend b => some (m.finalSuspend b)
  | .returned =>
    match m.driver with
    | .resume k => some (m.readRoot k)
    | .spawn => none
  | .dropRoot result => some (m.destroy 0 (.ended result))
  | .spawn => some m.callShim
  | .shimAwait => some m.shimAwait
  | .shimResume child => some (m.shimResume child)
  | .shimReturn => some m.shimReturn
  | .shimLeave => some m.shimLeave
  | .spawned => some m.leaveSpawn
  | .ended _ | .aborted => none

end Machine

def step (m : Machine E V) (_ : Unit) : Option (Machine E V) := if m.fault.isSome then none else m.next

/-- A root `Task` has been made. -/
def root (driver : Driver) (control : Control E V) (body : Body E V k) : Machine E V :=
  { driver := driver
    heap := update (fun _ => none) 0 (some { promise := .new k, point := .initial k body })
    frames := 1
    control := control
    log := [.created (.task 0)] }

/-- Its handle is resumed. -/
def resumed (body : Body E V k) : Machine E V := root (.resume k) (.resume (.task 0)) body

/-- It is given to `Scheduler::spawn`. -/
def spawned (body : Body E V .void) : Machine E V := { root .spawn .spawn body with task := some 0 }

end CoroNet.Coroutine
