import Mathlib.Algebra.Ring.Int.Defs
import Mathlib.Algebra.Ring.Nat
import Mathlib.Data.List.Basic
import Mathlib.Order.Lattice

namespace CoroNet

/-- What `time`, `fopen` and `fwrite` answer, by the number of the calls of
the C library made before. `fwrite` answers how many bytes it took. -/
structure Libc where
  time : Nat → Int
  fopen : Nat → Bool
  fwrite : Nat → Nat → Nat

/-- The parts of a log file's name that change from file to file. -/
structure Filename where
  stamp : Int
  seq : Option Int

/-- `content` is what the file holds once the stream's buffer is written out. -/
structure AppendFile where
  name : Filename
  fp : Bool
  content : List UInt8 := []
  flushed : Nat := 0
  writtenBytes : Int := 0

/-- A count below `remain` sets the error of the stream, and the loop leaves
without counting what was taken. -/
def AppendFile.append (f : AppendFile) (fwrite : Nat → Nat) (logline : List UInt8) : AppendFile :=
  if f.fp = false ∨ logline = [] then f
  else
    let n := min (fwrite logline.length) logline.length
    let written := if n = logline.length then n else 0
    { f with content := f.content ++ logline.take n, writtenBytes := f.writtenBytes + written }

def AppendFile.flush (f : AppendFile) : AppendFile :=
  if f.fp then { f with flushed := f.content.length } else f

/-- `closed` are the files opened before `file`, in the order they were
opened; `calls` counts the calls of the C library. -/
structure LogFile where
  rollSize : Int
  flushInterval : Int
  checkEveryN : Int
  count : Int := 0
  sameSecondSeq : Int := 0
  startOfPeriod : Int := 0
  lastRoll : Int := 0
  lastFlush : Int := 0
  file : Option AppendFile := none
  closed : List AppendFile := []
  calls : Nat := 0

namespace LogFile

def kRollPerSeconds : Int := 60 * 60 * 24

/-- `++` of an `int`. The language leaves the one of the largest value
undefined; the machine's sum wraps. -/
def increment (i : Int) : Int := (i + 1).bmod (2 ^ 32)

/-- The name of a new file and the new `same_second_seq_`. -/
def makeFilename (f : LogFile) (now : Int) : Filename × Int :=
  if now = f.lastRoll then
    ({ stamp := now, seq := some (increment f.sameSecondSeq) }, increment f.sameSecondSeq)
  else ({ stamp := now, seq := none }, 0)

/-- The files in the order they were opened. -/
def files (f : LogFile) : List AppendFile := f.closed ++ f.file.toList

def rollFile (libc : Libc) (f : LogFile) : LogFile × Bool :=
  let now := libc.time f.calls
  let (name, seq) := f.makeFilename now
  let start := now.tdiv kRollPerSeconds * kRollPerSeconds
  if f.lastRoll ≤ now then
    ({ f with
        sameSecondSeq := seq
        lastRoll := now
        lastFlush := now
        startOfPeriod := start
        file := some { name := name, fp := libc.fopen (f.calls + 1) }
        closed := f.files
        calls := f.calls + 2 }, true)
  else ({ f with sameSecondSeq := seq, calls := f.calls + 1 }, false)

def make (libc : Libc) (rollSize flushInterval checkEveryN : Int) : LogFile :=
  (rollFile libc { rollSize, flushInterval, checkEveryN }).1

/-- What follows the write: the roll by size, else every `check_every_n_`
appends the roll by day or the flush. -/
def afterWrite (libc : Libc) (f : LogFile) (writtenBytes : Int) : LogFile :=
  if f.rollSize < writtenBytes then (rollFile libc f).1
  else if f.checkEveryN ≤ f.count + 1 then
    let now := libc.time f.calls
    let f := { f with count := 0, calls := f.calls + 1 }
    if now.tdiv kRollPerSeconds * kRollPerSeconds ≠ f.startOfPeriod then (rollFile libc f).1
    else if f.flushInterval < now - f.lastFlush then
      { f with lastFlush := now, file := f.file.map AppendFile.flush }
    else f
  else { f with count := f.count + 1 }

def append (libc : Libc) (f : LogFile) (logline : List UInt8) : LogFile :=
  match f.file with
  | none => f
  | some file =>
    let file := file.append (libc.fwrite f.calls) logline
    afterWrite libc { f with file := some file, calls := f.calls + 1 } file.writtenBytes

def flush (f : LogFile) : LogFile := { f with file := f.file.map AppendFile.flush }

/-- What the owner of a log file calls. -/
inductive Call
  | append (logline : List UInt8)
  | flush
  | rollFile

def exec (libc : Libc) (f : LogFile) : Call → LogFile
  | .append logline => f.append libc logline
  | .flush => f.flush
  | .rollFile => (rollFile libc f).1

def after (libc : Libc) (f : LogFile) (calls : List Call) : LogFile := calls.foldl (exec libc) f

def Call.chunk : Call → Option (List UInt8)
  | .append logline => some logline
  | _ => none

/-- The chunks handed over by a list of calls, in order. -/
def chunks (calls : List Call) : List (List UInt8) := calls.filterMap Call.chunk

end LogFile

end CoroNet
