import CoroNet.General.Runs
import CoroNet.Memory.Buffer

namespace CoroNet

open Transition

/-- What is done with a buffer. A reception carries the bytes the kernel wrote. -/
inductive Buffer.Op
  | append (data : List UInt8)
  | receive (data : List UInt8)
  | ensureWritableBytes (len : Nat)
  | retrieve (len : Nat)
  | retrieveAll
  | retrieveAllAsString
  | retrieveAsString (len : Nat)

/-- What a buffer is for: bytes come in at the back and leave at the front,
some of them as strings handed to the caller. -/
structure ByteQueue where
  bytes : List UInt8 := []
  strings : List (List UInt8) := []

namespace ByteQueue

def apply (q : ByteQueue) : Buffer.Op → ByteQueue
  | .append data => { q with bytes := q.bytes ++ data }
  | .receive data => { q with bytes := q.bytes ++ data }
  | .ensureWritableBytes _ => q
  | .retrieve len => { q with bytes := q.bytes.drop (min len q.bytes.length) }
  | .retrieveAll => { q with bytes := [] }
  | .retrieveAllAsString => { bytes := [], strings := q.strings ++ [q.bytes] }
  | .retrieveAsString len => { bytes := q.bytes.drop len, strings := q.strings ++ [q.bytes.take len] }

def after (ops : List Buffer.Op) : ByteQueue := ops.foldl apply {}

end ByteQueue

namespace Buffer

/-- The number of bytes an operation brings or asks room for. -/
def Op.size : Op → Nat
  | .append data => data.length
  | .receive data => data.length
  | .ensureWritableBytes len => len
  | _ => 0

/-- A buffer in use, with the strings it has handed out. -/
structure World where
  buffer : Buffer
  strings : List (List UInt8) := []
  fault : Bool := false

namespace World

def start (initialSize : Nat) : World := { buffer := make initialSize }

/-- The callers take no more than there is as a string, and the kernel writes
no more than it was given room for. -/
def permits (w : World) : Op → Bool
  | .retrieveAsString len => decide (len ≤ w.buffer.readableBytes)
  | .receive data =>
    match w.buffer.ensureWritableBytes RecvIntoBufferAwaiter.kMinRecvSize with
    | some made => decide (data.length ≤ made.writableBytes)
    | none => true
  | _ => true

/-- The next state, or a fault. -/
def put (w : World) : Option Buffer → World
  | some b => { w with buffer := b }
  | none => { w with fault := true }

def take (w : World) : Option (List UInt8 × Buffer) → World
  | some (s, b) => { w with buffer := b, strings := w.strings ++ [s] }
  | none => { w with fault := true }

def exec (w : World) : Op → World
  | .append data => w.put (w.buffer.append data)
  | .receive data => w.put (w.buffer.receive data)
  | .ensureWritableBytes len => w.put (w.buffer.ensureWritableBytes len)
  | .retrieve len => { w with buffer := w.buffer.retrieve len }
  | .retrieveAll => { w with buffer := w.buffer.retrieveAll }
  | .retrieveAllAsString => w.take w.buffer.retrieveAllAsString
  | .retrieveAsString len => w.take (w.buffer.retrieveAsString len)

end World

def step (w : World) (op : Op) : Option World :=
  if w.fault = false ∧ w.permits op = true then some (w.exec op) else none

/-- The readable bytes are the queue, and the vector is not much larger than
all that was ever asked for. -/
structure Refines (w : World) (q : ByteQueue) (total : Nat) : Prop where
  fault : w.fault = false
  strings : w.strings = q.strings
  bytes : w.buffer.Holds q.bytes
  few : q.bytes.length ≤ total
  size : w.buffer.buffer.length ≤ total + 2 * RecvIntoBufferAwaiter.kMinRecvSize + kCheapPrepend

variable {w w' : World} {q : ByteQueue} {total : Nat}

/-- One operation does to the queue what it is meant to do. -/
theorem Refines.step (refines : Refines w q total) {op : Op} (move : step w op = some w')
    (fits : total + op.size + 3 * RecvIntoBufferAwaiter.kMinRecvSize + kCheapPrepend < 2 ^ 63) :
    Refines w' (q.apply op) (total + op.size) := by
  obtain ⟨⟨_, permitted⟩, moved⟩ := Option.ite_none_right_eq_some.mp move
  cases Option.some.inj moved
  have holds := refines.bytes
  have few := refines.few
  have size := refines.size
  cases op with
  | append data =>
    simp only [Op.size] at fits
    obtain ⟨b, done, next, grown⟩ := holds.append (show w.buffer.buffer.length + data.length < 2 ^ 63 by omega)
    simp only [World.exec, done, World.put]
    refine ⟨refines.fault, refines.strings, next, ?_, ?_⟩
    · simp only [ByteQueue.apply, List.length_append, Op.size]
      omega
    · simp only [Op.size]
      omega
  | receive data =>
    simp only [Op.size] at fits
    have within : w.buffer.buffer.length + RecvIntoBufferAwaiter.kMinRecvSize < 2 ^ 63 := by omega
    obtain ⟨made, made_eq, _⟩ := holds.ensureWritableBytes within
    simp only [World.permits, made_eq, decide_eq_true_eq] at permitted
    obtain ⟨b, done, next, grown⟩ := holds.receive within made_eq permitted
    simp only [World.exec, done, World.put]
    refine ⟨refines.fault, refines.strings, next, ?_, ?_⟩
    · simp only [ByteQueue.apply, List.length_append, Op.size]
      omega
    · simp only [Op.size]
      omega
  | ensureWritableBytes len =>
    simp only [Op.size] at fits
    obtain ⟨b, done, next, _, grown, _⟩ :=
      holds.ensureWritableBytes (show w.buffer.buffer.length + len < 2 ^ 63 by omega)
    simp only [World.exec, done, World.put]
    refine ⟨refines.fault, refines.strings, next, ?_, ?_⟩
    · simp only [ByteQueue.apply, Op.size]
      omega
    · simp only [Op.size]
      omega
  | retrieve len =>
    refine ⟨refines.fault, refines.strings, holds.retrieve len, ?_, ?_⟩
    · simp only [ByteQueue.apply, List.length_drop, Op.size]
      omega
    · simp only [World.exec, retrieve_buffer, Op.size]
      omega
  | retrieveAll => exact ⟨refines.fault, refines.strings, holds.retrieveAll, Nat.zero_le _, size⟩
  | retrieveAllAsString =>
    simp only [World.exec, holds.retrieveAllAsString, World.take]
    refine ⟨refines.fault, ?_, holds.retrieveAll, Nat.zero_le _, size⟩
    simp only [ByteQueue.apply, refines.strings]
  | retrieveAsString len =>
    simp only [World.permits, holds.readableBytes, decide_eq_true_eq] at permitted
    simp only [World.exec, holds.retrieveAsString permitted, World.take]
    have next := holds.retrieve len
    rw [min_eq_left permitted] at next
    refine ⟨refines.fault, ?_, next, ?_, ?_⟩
    · simp only [ByteQueue.apply, refines.strings]
    · simp only [ByteQueue.apply, List.length_drop, Op.size]
      omega
    · simp only [retrieve_buffer, Op.size]
      omega

theorem run_refines {initialSize : Nat} {ops : List Op} (reach : Run step (World.start initialSize) ops w)
    (small : initialSize + (ops.map Op.size).sum + 3 * RecvIntoBufferAwaiter.kMinRecvSize + kCheapPrepend < 2 ^ 63) :
    Refines w (ByteQueue.after ops) (initialSize + (ops.map Op.size).sum) := by
  induction reach with
  | start =>
    have holds : (make initialSize).Holds [] := make_holds (by omega)
    refine ⟨rfl, rfl, holds, Nat.zero_le _, ?_⟩
    rw [World.start, make, List.length_replicate, SizeT.add_of_lt (by omega)]
    omega
  | @next before _ _ op _ _ move ih =>
    have total : ((before ++ [op]).map Op.size).sum = (before.map Op.size).sum + op.size := by simp
    have next := (ih (by omega)).step move (by omega)
    rwa [ByteQueue.after, List.foldl_concat, total, ← Nat.add_assoc]

/-- Over any sequence of operations a buffer behaves as a queue of bytes, no
assertion fails and no byte outside the vector is touched. -/
theorem buffer_is_byte_queue {initialSize : Nat} {ops : List Op} (reach : Run step (World.start initialSize) ops w)
    (small : initialSize + (ops.map Op.size).sum + 3 * RecvIntoBufferAwaiter.kMinRecvSize + kCheapPrepend < 2 ^ 63) :
    w.fault = false ∧ w.buffer.readable = (ByteQueue.after ops).bytes ∧ w.strings = (ByteQueue.after ops).strings ∧
      kCheapPrepend ≤ w.buffer.readerIndex ∧ w.buffer.readerIndex ≤ w.buffer.writerIndex ∧
      w.buffer.writerIndex ≤ w.buffer.buffer.length ∧
      ∀ len, initialSize + (ops.map Op.size).sum + len + 3 * RecvIntoBufferAwaiter.kMinRecvSize + kCheapPrepend < 2 ^ 63 →
        ∃ b, w.buffer.ensureWritableBytes len = some b ∧ len ≤ b.writableBytes ∧ b.readable = w.buffer.readable := by
  have refines := run_refines reach small
  have holds := refines.bytes
  have writer := holds.writer
  refine ⟨refines.fault, holds.readable, refines.strings, holds.reserve, by omega, holds.writer_le, ?_⟩
  intro len fits
  have size := refines.size
  obtain ⟨b, made, next, room, _⟩ := holds.ensureWritableBytes (show w.buffer.buffer.length + len < 2 ^ 63 by omega)
  exact ⟨b, made, room, next.readable.trans holds.readable.symm⟩

/-- Bytes slide down past a partial retrieval, and the vector grows. -/
def mixedUse : List Op :=
  [.append [1, 2, 3], .retrieve 2, .ensureWritableBytes 3, .receive [4, 5], .retrieveAsString 2, .append [6],
    .retrieveAllAsString, .retrieve 9]

theorem mixed_use_is_byte_queue :
    (after step (World.start 5) mixedUse).strings = [[3, 4], [5, 6]] ∧
      (after step (World.start 5) mixedUse).fault = false := by
  have reach : Run step (World.start 5) mixedUse (after step (World.start 5) mixedUse) :=
    run_after (by decide +kernel)
  have queue := buffer_is_byte_queue reach (by decide)
  exact ⟨queue.2.2.1, queue.1⟩

end Buffer

end CoroNet
