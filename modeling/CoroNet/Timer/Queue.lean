import CoroNet.General.KeyedSet
import CoroNet.General.Runs
import CoroNet.Int64
import Mathlib.Data.Prod.Lex
import Mathlib.Logic.Function.Basic

namespace CoroNet.Timers

open Function

/-- The values of `TimerSequence`, a 64-bit counter, lie below this bound. -/
def sequenceBound : Nat := 2 ^ 64

/-- The node objects. A callback is opaque; it is named by a number. -/
structure Timer where
  callback : Nat
  expiration : Int
  interval : Int
  repeat_ : Bool
  sequence : Nat

def Timer.new (callback : Nat) (expiration interval : Int) (sequence : Nat) : Timer :=
  ⟨callback, expiration, interval, decide (0 < interval), sequence⟩

def Timer.restart (t : Timer) (now : Int) : Timer :=
  { t with expiration := wrap64 (now + t.interval) }

/-- A `Timer*`: the address, which the allocator may hand out again after a
delete, and the allocation the pointer was obtained from. -/
structure TimerPtr where
  addr : Nat
  block : Nat
deriving DecidableEq

structure TimerId where
  timer : Option TimerPtr := none
  seq : Nat := 0
deriving DecidableEq

def TimerId.valid (id : TimerId) : Bool := id.timer.isSome

/-- An element of `timers_`. The set compares the time and then the address. -/
structure Entry where
  time : Int
  timer : TimerPtr
deriving DecidableEq

def Entry.key (e : Entry) : Int ×ₗ Nat := toLex (e.time, e.timer.addr)

/-- A live allocation. -/
structure Cell where
  addr : Nat
  timer : Timer

structure Itimerspec where
  tvSec : Int := 0
  tvNsec : Int := 0

/-- The kernel's side of the timerfd: the absolute time of the alarm, the
clock at the last `timerfd_settime` that set one, and whether a completed
read of the descriptor waits for the loop. -/
structure Timerfd where
  alarm : Option Int := none
  armedAt : Int := 0
  pending : Bool := false

def Timerfd.settime (fd : Timerfd) (now : Int) (spec : Itimerspec) : Timerfd :=
  if spec.tvSec = 0 ∧ spec.tvNsec = 0 then { fd with alarm := none }
  else { fd with alarm := some (now + (spec.tvSec * 1000000000 + spec.tvNsec)), armedAt := now }

/-- Where control is: outside the queue's functions, in a `handleExpired`
with the clock it sampled, the timers it popped and those it has not called
yet (`running` while a callback is on the stack), or past the destructor. -/
inductive Activation
  | idle
  | batch (now : Int) (expired rest : List TimerPtr) (running : Bool)
  | destroyed

def Activation.expired : Activation → List TimerPtr
  | .batch _ expired _ _ => expired
  | _ => []

def Activation.rest : Activation → List TimerPtr
  | .batch _ _ rest _ => rest
  | _ => []

inductive Fault
  | useAfterFree
  | doubleDelete
deriving DecidableEq

/-- The members of a `TimerQueue`, then the heap, the clock, the timerfd and
the control state around it, then what has happened so far: 64-bit overflows
of a time, ids returned, callbacks started and objects deleted (both by
allocation). A step with undefined behaviour sets `fault`. -/
structure World where
  nextSeq : Nat := 1
  timers : KeyedSet Entry.key := .empty
  active : Nat → Option TimerPtr := fun _ => none
  callingExpired : Bool := false
  cancelingSeqs : List Nat := []
  heap : Nat → Option Cell := fun _ => none
  blocks : Nat := 0
  clock : Int := 0
  fd : Timerfd := {}
  activation : Activation := .idle
  overflow : Bool := false
  issued : List TimerId := []
  started : List Nat := []
  deleted : List Nat := []
  fault : Option Fault := none

namespace World

def deref (w : World) (p : TimerPtr) : Except Fault Timer :=
  match w.heap p.block with
  | some cell => .ok cell.timer
  | none => .error .useAfterFree

def delete (w : World) (p : TimerPtr) : Except Fault World :=
  match w.heap p.block with
  | some _ => .ok { w with heap := update w.heap p.block none, deleted := w.deleted ++ [p.block] }
  | none => .error .doubleDelete

/-- `now` is the clock read inside; the kernel counts from the same value. -/
def resetTimerfd (w : World) (time now : Int) : World :=
  let delta := wrap64 (time - now)
  let ns := if delta ≤ 0 then 1 else delta
  { w with
    fd := w.fd.settime now ⟨ns / 1000000000, ns % 1000000000⟩
    clock := now
    overflow := w.overflow || !fits64 (time - now) }

def disarmTimerfd (w : World) : World :=
  { w with fd := w.fd.settime w.clock {} }

/-- The last lines of `handleExpired` and of a `cancel` of the first timer. -/
def rearm (w : World) (now : Int) : World :=
  match w.timers.first? with
  | none => w.disarmTimerfd
  | some e => w.resetTimerfd e.time now

/-- The common body of `add` and `addPeriodic`. `now` is the clock read
first, `now'` the one `resetTimerfd` reads, `addr` what `new` returns. -/
def insertNew (w : World) (callback : Nat) (delay interval now now' : Int) (addr : Nat) : World :=
  let time := wrap64 (now + delay)
  let seq := w.nextSeq
  let t : TimerPtr := ⟨addr, w.blocks⟩
  let wasEmptyOrNewTop := match w.timers.first? with
    | none => true
    | some e => decide (time < e.time)
  let next : World :=
    { w with
      nextSeq := (seq + 1) % sequenceBound
      heap := update w.heap w.blocks (some ⟨addr, Timer.new callback time interval seq⟩)
      blocks := w.blocks + 1
      timers := w.timers.insert ⟨time, t⟩
      active := update w.active seq (some t)
      clock := now
      overflow := w.overflow || !fits64 (now + delay)
      issued := w.issued ++ [⟨some t, seq⟩] }
  if wasEmptyOrNewTop then next.resetTimerfd time now' else next

def add (w : World) (callback : Nat) (delay now now' : Int) (addr : Nat) : World :=
  w.insertNew callback delay 0 now now' addr

def addPeriodic (w : World) (callback : Nat) (interval now now' : Int) (addr : Nat) : World :=
  w.insertNew callback interval interval now now' addr

def cancel (w : World) (id : TimerId) (now : Int) : Except Fault World :=
  if !id.valid then .ok w
  else match w.active id.seq with
    | none =>
      -- fired or cancelled already; a batch in progress is told not to re-insert it
      .ok (if w.callingExpired then { w with cancelingSeqs := w.cancelingSeqs ++ [id.seq] } else w)
    | some t => do
      let wasTop := w.timers.first?.map (·.timer.addr) = some t.addr
      let timer ← w.deref t
      let found : World :=
        { w with
          timers := w.timers.erase (Entry.key ⟨timer.expiration, t⟩)
          active := update w.active id.seq none
          cancelingSeqs := if w.callingExpired then w.cancelingSeqs ++ [id.seq] else w.cancelingSeqs }
      let gone ← found.delete t
      .ok (if wasTop then gone.rearm now else gone)

/-- The `active_.erase` of each popped timer in turn. -/
def eraseActive (w : World) : List Entry → (Nat → Option TimerPtr) → Except Fault (Nat → Option TimerPtr)
  | [], active => .ok active
  | e :: rest, active => do
    let timer ← w.deref e.timer
    w.eraseActive rest (update active timer.sequence none)

/-- `handleExpired` up to the loop over the callbacks. -/
def expire (w : World) (now : Int) : Except Fault World := do
  let popped := w.timers.popWhile fun e => e.time ≤ now
  let active ← w.eraseActive popped.1 w.active
  let expired := popped.1.map Entry.timer
  .ok { w with
    timers := popped.2
    active := active
    clock := now
    callingExpired := true
    activation := .batch now expired expired false }

/-- A `handleExpired` that answers a completion of the timerfd read has
consumed it. -/
def consume (w : World) (completed : Bool) : World :=
  { w with fd := { w.fd with pending := w.fd.pending && !completed } }

/-- The call `t->run()`; what the callback does are the steps that follow. -/
def call (w : World) (now : Int) (expired : List TimerPtr) (t : TimerPtr) (rest : List TimerPtr) :
    Except Fault World := do
  let _ ← w.deref t
  .ok { w with activation := .batch now expired rest true, started := w.started ++ [t.block] }

/-- The second loop of `handleExpired`. -/
def reinsert (now : Int) : List TimerPtr → World → Except Fault World
  | [], w => .ok w
  | t :: rest, w => do
    let timer ← w.deref t
    if timer.repeat_ && !w.cancelingSeqs.contains timer.sequence then
      let timer' := timer.restart now
      reinsert now rest
        { w with
          heap := update w.heap t.block (some ⟨t.addr, timer'⟩)
          timers := w.timers.insert ⟨timer'.expiration, t⟩
          active := update w.active timer'.sequence (some t)
          overflow := w.overflow || !fits64 (now + timer.interval) }
    else do
      let gone ← w.delete t
      reinsert now rest gone

/-- `handleExpired` after the loop over the callbacks. -/
def finish (w : World) (now : Int) (expired : List TimerPtr) (now' : Int) : Except Fault World := do
  let calm : World := { w with callingExpired := false }
  let kept ← reinsert now expired calm
  let cleared : World := { kept with cancelingSeqs := [], activation := .idle }
  .ok (cleared.rearm now')

/-- The loop of the destructor; the members then go with the object. -/
def deleteAll : List Entry → World → Except Fault World
  | [], w => .ok w
  | e :: rest, w => do
    let gone ← w.delete e.timer
    deleteAll rest gone

def destroy (w : World) : Except Fault World := do
  let gone ← deleteAll w.timers.elems w
  .ok { gone with timers := .empty, active := fun _ => none, activation := .destroyed }

end World

/-- One step: an operation of the queue, the alarm going off, or the queue's
own progress inside `handleExpired`. The operands `now`, `now'` are the values
the clock has where it is read, `addr` is the allocator's choice. -/
inductive Act
  | fire (now : Int)
  | add (callback : Nat) (delay now now' : Int) (addr : Nat)
  | addPeriodic (callback : Nat) (interval now now' : Int) (addr : Nat)
  | cancel (id : TimerId) (now : Int)
  | expire (completed : Bool) (now : Int)
  | call
  | ret (threw : Bool)
  | finish (now : Int)
  | destroy

/-- The action creates a timer. -/
def Act.creates : Act → Bool
  | .add .. | .addPeriodic .. => true
  | _ => false

/-- The number of timers a run creates. -/
def created (acts : List Act) : Nat := acts.countP Act.creates

namespace World

/-- The queue's public operations are called from outside or from a callback. -/
def userCode (w : World) : Bool :=
  match w.activation with
  | .idle => true
  | .batch _ _ _ running => running
  | .destroyed => false

/-- `new` returns a non-null address at which nothing is alive. -/
def canAllocate (w : World) (addr : Nat) : Bool :=
  decide (addr ≠ 0 ∧ ∀ b < w.blocks, (w.heap b).map Cell.addr ≠ some addr)

def outcome (w : World) : Except Fault World → World
  | .ok next => next
  | .error f => { w with fault := some f }

end World

def step (w : World) (a : Act) : Option World :=
  if w.fault ≠ none then none
  else match a with
    | .fire now =>
      match w.fd.alarm with
      | some time =>
        if w.clock ≤ now ∧ time ≤ now then
          some { w with clock := now, fd := { w.fd with alarm := none, pending := true } }
        else none
      | none => none
    | .add callback delay now now' addr =>
      if w.userCode ∧ w.canAllocate addr ∧ w.clock ≤ now ∧ now ≤ now' then
        some (w.add callback delay now now' addr)
      else none
    | .addPeriodic callback interval now now' addr =>
      if w.userCode ∧ w.canAllocate addr ∧ w.clock ≤ now ∧ now ≤ now' then
        some (w.addPeriodic callback interval now now' addr)
      else none
    | .cancel id now =>
      if w.userCode ∧ w.clock ≤ now then some (w.outcome (w.cancel id now)) else none
    | .expire completed now =>
      match w.activation with
      | .idle =>
        if w.clock ≤ now ∧ (completed → w.fd.pending) then
          some ((w.consume completed).outcome ((w.consume completed).expire now))
        else none
      | _ => none
    | .call =>
      match w.activation with
      | .batch now expired (t :: rest) false => some (w.outcome (w.call now expired t rest))
      | _ => none
    | .ret _ =>
      -- an exception of the callback is caught and logged
      match w.activation with
      | .batch now expired rest true => some { w with activation := .batch now expired rest false }
      | _ => none
    | .finish now' =>
      match w.activation with
      | .batch now expired [] false =>
        if w.clock ≤ now' then some (w.outcome (w.finish now expired now')) else none
      | _ => none
    | .destroy =>
      match w.activation with
      | .idle => some (w.outcome w.destroy)
      | _ => none

/-- The state of a new queue. -/
def start : World := {}

end CoroNet.Timers
