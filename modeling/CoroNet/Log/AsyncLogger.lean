import CoroNet.General.Runs
import CoroNet.Log.FixedBuffer
import Mathlib.Logic.Function.Basic

namespace CoroNet.AsyncLogger

open Function

/-- A formatted line as `append` receives it. -/
abbrev Line := List UInt8

abbrev BufferPtr := Option LargeBuffer

/-- The logger's own line about erased buffers. -/
def droppedText (n : Nat) : String := s!"Dropped {n} log buffers (over backpressure limit)\n"

/-- What one `LogFile::append` hands over: the contents of a buffer, or the
line about `n` erased buffers. -/
inductive Chunk
  | lines (data : List UInt8)
  | dropped (n : Nat)

def Chunk.bytes : Chunk → List UInt8
  | .lines data => data
  | .dropped n => (droppedText n).toUTF8.toList

/-- Where `thread_func` is: before the loop condition, before the lock of the
swap, in `wait_for`, before the test of the size, in the loop of the writes
with the buffers it has still to write, before the recycling, before the last
lock, in the last loop, past the end. -/
inductive Backend
  | top
  | lock
  | waiting
  | limit
  | writing (rest : List BufferPtr)
  | recycle
  | final
  | flushing (rest : List BufferPtr)
  | exited

/-- Where a thread's call of `append` is: before the test of the flags, or
past it and before the lock. -/
inductive Caller
  | idle
  | entered (line : Line)
  | passed (line : Line)

/-- Where the one call of `shutdown` or `flush_and_stop` is. -/
inductive Stopper
  | ready
  | storing
  | notifying
  | joining
  | joined
  | returned

inductive Fault
  | nullBuffer
  | emptyVector
  | dataRace

/-- The members of the logger, the local variables of `thread_func`, where
the threads are, and what has happened: the chunks handed to the `LogFile`,
the lines on stderr, the lines in the order their appends took the lock and
the lines whose append has returned. A step with undefined behaviour sets
`fault`. `terminating_` is set by the destructor, which no run here reaches. -/
structure World where
  current : BufferPtr
  next : BufferPtr
  buffers : List BufferPtr := []
  started : Bool := true
  running : Bool := true
  terminating : Bool := false
  newBuf1 : BufferPtr := some {}
  newBuf2 : BufferPtr := some {}
  buffersToWrite : List BufferPtr := []
  backend : Backend := .top
  callers : Nat → Caller := fun _ => .idle
  stopper : Stopper := .ready
  output : List Chunk := []
  stderr : List Line := []
  history : List Line := []
  returned : List Line := []
  fault : Option Fault := none

namespace World

/-- `append` under the lock. -/
def append (w : World) (line : Line) : Except Fault World :=
  match w.current with
  | none => .error .nullBuffer
  | some b =>
    if line.length < b.avail then .ok { w with current := some (b.append line) }
    else match w.backend with
      -- the last loop of `thread_func` walks over `buffers_` without the lock
      | .flushing _ => .error .dataRace
      | _ =>
        let fresh : LargeBuffer := match w.next with
          | some n => n
          | none => {}
        .ok { w with
          buffers := w.buffers ++ [w.current]
          next := none
          current := some (fresh.append line) }

/-- The first locked section of `thread_func` after the wait. -/
def swap (w : World) : World :=
  { w with
    buffersToWrite := w.buffers ++ [w.current]
    buffers := w.buffersToWrite
    current := w.newBuf1
    newBuf1 := none
    next := if w.next.isNone then w.newBuf2 else w.next
    newBuf2 := if w.next.isNone then none else w.newBuf2
    backend := .limit }

def limit (w : World) : World :=
  if w.buffersToWrite.length > 25 then
    { w with
      output := w.output ++ [.dropped (w.buffersToWrite.length - 2)]
      buffersToWrite := w.buffersToWrite.take 2
      backend := .writing (w.buffersToWrite.take 2) }
  else { w with backend := .writing w.buffersToWrite }

def write (w : World) : List BufferPtr → Except Fault World
  | [] => .ok { w with backend := .recycle }
  | none :: _ => .error .nullBuffer
  | some b :: rest => .ok { w with output := w.output ++ [.lines b.data], backend := .writing rest }

/-- `back`, `pop_back` and `reset`. -/
def takeBack (spare : List BufferPtr) : Except Fault (BufferPtr × List BufferPtr) :=
  match spare.getLast? with
  | none => .error .emptyVector
  | some none => .error .nullBuffer
  | some (some b) => .ok (some b.reset, spare.dropLast)

/-- A spare that is wanted comes from the end of the vector. -/
def refill (wanted : Bool) (p : BufferPtr) (spare : List BufferPtr) : Except Fault (BufferPtr × List BufferPtr) :=
  if wanted then takeBack spare else .ok (p, spare)

def recycle (w : World) : Except Fault World := do
  let spare := if w.buffersToWrite.length > 2 then w.buffersToWrite.take 2 else w.buffersToWrite
  let first ← refill w.newBuf1.isNone w.newBuf1 spare
  let second ← refill (w.newBuf2.isNone && !first.2.isEmpty) w.newBuf2 first.2
  .ok { w with newBuf1 := first.1, newBuf2 := second.1, buffersToWrite := [], backend := .top }

/-- The last locked section of `thread_func`. -/
def final (w : World) : World :=
  match w.current with
  | none => { w with backend := .flushing w.buffers }
  | some b =>
    if 0 < b.length then
      { w with
        buffers := w.buffers ++ [w.current]
        current := none
        backend := .flushing (w.buffers ++ [w.current]) }
    else { w with backend := .flushing w.buffers }

def flush (w : World) : List BufferPtr → World
  | [] => { w with buffers := [], backend := .exited }
  | none :: rest => { w with backend := .flushing rest }
  | some b :: rest => { w with output := w.output ++ [.lines b.data], backend := .flushing rest }

/-- The next step of `thread_func`. A wait may end at any time: by the
timeout, a notification or for no reason. -/
def back (w : World) : Except Fault World :=
  match w.backend with
  | .top => .ok { w with backend := if w.running then .lock else .final }
  | .lock => .ok (if w.buffers.isEmpty then { w with backend := .waiting } else w.swap)
  | .waiting => .ok w.swap
  | .limit => .ok w.limit
  | .writing rest => w.write rest
  | .recycle => w.recycle
  | .final => .ok w.final
  | .flushing rest => .ok (w.flush rest)
  | .exited => .ok w

/-- The rest of `shutdown` and `flush_and_stop` after their first access to
the flags. -/
def stop (w : World) : Option World :=
  match w.stopper with
  | .ready => none
  | .storing => some { w with running := false, stopper := .notifying }
  | .notifying => some { w with stopper := .joining }
  | .joining =>
    match w.backend with
    | .exited => some { w with stopper := .joined }
    | _ => none
  | .joined => some { w with started := false, stopper := .returned }
  | .returned => none

end World

/-- A thread calls `append`, tests the flags, runs its locked section; the
back-end takes its next step; `shutdown` exchanges `running_`,
`flush_and_stop` reads `started_`; whichever it was goes on. -/
inductive Act
  | call (thread : Nat) (line : Line)
  | check (thread : Nat)
  | lock (thread : Nat)
  | back
  | shutdown
  | flushAndStop
  | stop

def World.outcome (w : World) : Except Fault World → World
  | .ok next => next
  | .error f => { w with fault := some f }

def step (w : World) (a : Act) : Option World :=
  if w.fault.isSome then none
  else match a with
    | .call thread line =>
      match w.callers thread with
      | .idle => some { w with callers := update w.callers thread (.entered line) }
      | _ => none
    | .check thread =>
      match w.callers thread with
      | .entered line =>
        if w.terminating || !w.started then
          some { w with
            callers := update w.callers thread .idle
            stderr := w.stderr ++ [line]
            returned := w.returned ++ [line] }
        else some { w with callers := update w.callers thread (.passed line) }
      | _ => none
    | .lock thread =>
      match w.callers thread with
      | .passed line =>
        some (w.outcome do
          let next ← w.append line
          .ok { next with
            callers := update w.callers thread .idle
            history := w.history ++ [line]
            returned := w.returned ++ [line] })
      | _ => none
    | .back =>
      match w.backend with
      | .exited => none
      | _ => some (w.outcome w.back)
    | .shutdown =>
      match w.stopper with
      | .ready =>
        some { w with running := false, stopper := if w.running then .notifying else .returned }
      | _ => none
    | .flushAndStop =>
      match w.stopper with
      | .ready => some { w with stopper := if w.started then .storing else .returned }
      | _ => none
    | .stop => w.stop

/-- The state `start_locked` leaves, with the back-end at its loop. -/
def start : World := { current := some {}, next := some {} }

end CoroNet.AsyncLogger
