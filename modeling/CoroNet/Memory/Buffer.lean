import CoroNet.SizeT
import Mathlib.Data.List.Basic
import Mathlib.Order.Lattice

namespace CoroNet

/-- The bytes of the vector and the two indices into it. An operation has no
result where it would touch bytes outside the vector, resize it beyond its
greatest size or fail an assertion. -/
structure Buffer where
  buffer : List UInt8
  readerIndex : Nat
  writerIndex : Nat

namespace Buffer

def kCheapPrepend : Nat := 8

def kInitialSize : Nat := 1024

def make (initialSize : Nat) : Buffer where
  buffer := List.replicate (SizeT.add kCheapPrepend initialSize) 0
  readerIndex := kCheapPrepend
  writerIndex := kCheapPrepend

def readableBytes (b : Buffer) : Nat := SizeT.sub b.writerIndex b.readerIndex

def writableBytes (b : Buffer) : Nat := SizeT.sub b.buffer.length b.writerIndex

def prependableBytes (b : Buffer) : Nat := b.readerIndex

/-- The bytes from `peek()` to `peek() + readableBytes()`. -/
def readable (b : Buffer) : List UInt8 := (b.buffer.drop b.readerIndex).take b.readableBytes

/-- Copies bytes out of the vector. -/
def read (b : Buffer) (index len : Nat) : Option (List UInt8) :=
  if index + len ≤ b.buffer.length then some ((b.buffer.drop index).take len) else none

/-- Copies bytes into the vector, as `memcpy`, `memmove` and the kernel do. -/
def write (b : Buffer) (index : Nat) (data : List UInt8) : Option Buffer :=
  if index + data.length ≤ b.buffer.length then
    some { b with buffer := b.buffer.take index ++ data ++ b.buffer.drop (index + data.length) }
  else none

/-- `std::vector::resize`; a vector of bytes holds fewer than 2^63 of them. -/
def resize (b : Buffer) (size : Nat) : Option Buffer :=
  if size < 2 ^ 63 then
    some { b with buffer := b.buffer.take size ++ List.replicate (size - b.buffer.length) 0 }
  else none

def retrieveAll (b : Buffer) : Buffer :=
  { b with readerIndex := kCheapPrepend, writerIndex := kCheapPrepend }

def retrieve (b : Buffer) (len : Nat) : Buffer :=
  if len < b.readableBytes then { b with readerIndex := SizeT.add b.readerIndex len }
  else b.retrieveAll

def retrieveAsString (b : Buffer) (len : Nat) : Option (List UInt8 × Buffer) := do
  let s ← b.read b.readerIndex len
  return (s, b.retrieve len)

def retrieveAllAsString (b : Buffer) : Option (List UInt8 × Buffer) := b.retrieveAsString b.readableBytes

def makeSpace (b : Buffer) (len : Nat) : Option Buffer :=
  if SizeT.add b.writableBytes b.prependableBytes < SizeT.add len kCheapPrepend then
    b.resize (SizeT.add b.writerIndex len)
  else do
    let readable := b.readableBytes
    let moved ← b.write kCheapPrepend (← b.read b.readerIndex readable)
    return { moved with readerIndex := kCheapPrepend, writerIndex := SizeT.add kCheapPrepend readable }

def ensureWritableBytes (b : Buffer) (len : Nat) : Option Buffer :=
  if b.writableBytes < len then b.makeSpace len else some b

/-- `makeSpace` asks the vector for more than it can have; the vector throws
before anything has changed. -/
def Throws (b : Buffer) (len : Nat) : Prop :=
  b.writableBytes < len ∧
    SizeT.add b.writableBytes b.prependableBytes < SizeT.add len kCheapPrepend ∧
    b.resize (SizeT.add b.writerIndex len) = none

def append (b : Buffer) (data : List UInt8) : Option Buffer := do
  let b ← b.ensureWritableBytes data.length
  let b ← b.write b.writerIndex data
  return { b with writerIndex := SizeT.add b.writerIndex data.length }

/-- The assertion stands in front of the update. -/
def hasWritten (b : Buffer) (n : Nat) : Option Buffer :=
  if n ≤ b.writableBytes then some { b with writerIndex := SizeT.add b.writerIndex n } else none

end Buffer

def RecvIntoBufferAwaiter.kMinRecvSize : Nat := 4096

open RecvIntoBufferAwaiter in
/-- A reception: `await_suspend` makes room, the kernel writes the data where
writing begins, `on_complete` reports a positive count to the buffer. -/
def Buffer.receive (b : Buffer) (data : List UInt8) : Option Buffer := do
  let b ← b.ensureWritableBytes kMinRecvSize
  let b ← b.write b.writerIndex data
  if 0 < data.length then b.hasWritten data.length else return b

theorem Buffer.retrieve_buffer (b : Buffer) (len : Nat) : (b.retrieve len).buffer = b.buffer := by
  unfold Buffer.retrieve
  split <;> rfl

theorem Buffer.write_length {b b' : Buffer} {index : Nat} {data : List UInt8} (done : b.write index data = some b') :
    b'.buffer.length = b.buffer.length := by
  obtain ⟨inside, eq⟩ := Option.ite_none_right_eq_some.mp done
  cases Option.some.inj eq
  simp only [List.length_append, List.length_take, List.length_drop]
  omega

/-- The readable bytes lie between the two indices, behind the reserve. -/
structure Buffer.Holds (b : Buffer) (bytes : List UInt8) : Prop where
  layout : ∃ front back, b.buffer = front ++ bytes ++ back ∧ front.length = b.readerIndex
  reserve : Buffer.kCheapPrepend ≤ b.readerIndex
  writer : b.writerIndex = b.readerIndex + bytes.length
  small : b.buffer.length < 2 ^ 63

namespace Buffer.Holds

variable {b : Buffer} {bytes : List UInt8}

theorem writer_le (holds : b.Holds bytes) : b.writerIndex ≤ b.buffer.length := by
  obtain ⟨front, back, layout, length⟩ := holds.layout
  have writer := holds.writer
  rw [layout]
  simp only [List.length_append]
  omega

theorem readableBytes (holds : b.Holds bytes) : b.readableBytes = bytes.length := by
  have writer := holds.writer
  have bound := holds.writer_le
  have small := holds.small
  rw [Buffer.readableBytes, SizeT.sub_of_le (by omega) (by omega)]
  omega

theorem writableBytes (holds : b.Holds bytes) : b.writableBytes = b.buffer.length - b.writerIndex := by
  have small := holds.small
  exact SizeT.sub_of_le holds.writer_le (by omega)

theorem readable (holds : b.Holds bytes) : b.readable = bytes := by
  obtain ⟨front, back, layout, length⟩ := holds.layout
  rw [Buffer.readable, holds.readableBytes, layout, ← length]
  simp

theorem read (holds : b.Holds bytes) {len : Nat} (within : len ≤ bytes.length) :
    b.read b.readerIndex len = some (bytes.take len) := by
  obtain ⟨front, back, layout, length⟩ := holds.layout
  have writer := holds.writer
  have bound := holds.writer_le
  rw [Buffer.read, if_pos (by omega), layout, ← length]
  simp [List.take_append_of_le_length within]

theorem retrieveAll (holds : b.Holds bytes) : b.retrieveAll.Holds [] := by
  have writer := holds.writer
  have bound := holds.writer_le
  have reserve := holds.reserve
  refine ⟨⟨b.buffer.take kCheapPrepend, b.buffer.drop kCheapPrepend, ?_, ?_⟩, ?_, rfl, holds.small⟩
  · simp [Buffer.retrieveAll]
  · simp only [Buffer.retrieveAll, List.length_take]
    omega
  · simp [Buffer.retrieveAll]

theorem retrieve (holds : b.Holds bytes) (len : Nat) :
    (b.retrieve len).Holds (bytes.drop (min len bytes.length)) := by
  have writer := holds.writer
  have bound := holds.writer_le
  have reserve := holds.reserve
  have small := holds.small
  unfold Buffer.retrieve
  rw [holds.readableBytes]
  by_cases part : len < bytes.length
  · rw [if_pos part, min_eq_left part.le, SizeT.add_of_lt (by omega)]
    obtain ⟨front, back, layout, length⟩ := holds.layout
    refine ⟨⟨front ++ bytes.take len, back, ?_, ?_⟩, ?_, ?_, holds.small⟩
    · simp [layout]
    · simp only [List.length_append, List.length_take]
      omega
    · simp only
      omega
    · simp only [List.length_drop]
      omega
  · rw [if_neg part, min_eq_right (by omega), List.drop_length]
    exact holds.retrieveAll

/-- Where `makeSpace` does not ask for a larger vector the bytes slide down to
the reserve. -/
theorem makeSpace_slides (holds : b.Holds bytes) {len : Nat}
    (stays : ¬ SizeT.add b.writableBytes b.prependableBytes < SizeT.add len kCheapPrepend) :
    ∃ b', b.makeSpace len = some b' ∧ b'.Holds bytes ∧ b'.buffer.length = b.buffer.length ∧
      b'.readerIndex = kCheapPrepend := by
  have writer := holds.writer
  have bound := holds.writer_le
  have reserve := holds.reserve
  have small := holds.small
  have inside : kCheapPrepend + bytes.length ≤ b.buffer.length := by omega
  rw [Buffer.makeSpace, if_neg stays, holds.readableBytes]
  dsimp only
  rw [holds.read le_rfl, List.take_length]
  have size : (b.buffer.take kCheapPrepend ++ bytes ++ b.buffer.drop (kCheapPrepend + bytes.length)).length =
      b.buffer.length := by
    simp only [List.length_append, List.length_take, List.length_drop]
    omega
  refine ⟨⟨b.buffer.take kCheapPrepend ++ bytes ++ b.buffer.drop (kCheapPrepend + bytes.length),
    kCheapPrepend, kCheapPrepend + bytes.length⟩, ?_, ?_, size, rfl⟩
  · simp [Buffer.write, if_pos inside, SizeT.add_of_lt (show kCheapPrepend + bytes.length < 2 ^ 64 by omega)]
  · refine ⟨⟨b.buffer.take kCheapPrepend, b.buffer.drop (kCheapPrepend + bytes.length), rfl, ?_⟩, le_rfl, rfl,
      size.trans_lt small⟩
    simp only [List.length_take]
    omega

/-- Either there is room, or the vector grows, or the bytes slide down to the
reserve, or the vector would get too large. In each case the bytes stay. -/
theorem ensureWritableBytes_cases (holds : b.Holds bytes) {len : Nat} (width : b.writerIndex + len < 2 ^ 64) :
    b.Throws len ∨ ∃ b', b.ensureWritableBytes len = some b' ∧ b'.Holds bytes ∧ len ≤ b'.writableBytes ∧
      (b'.buffer.length ≤ b.buffer.length ∨
        b'.buffer.length = b.writerIndex + len ∧ b.readerIndex < len + kCheapPrepend) := by
  obtain ⟨front, back, layout, length⟩ := holds.layout
  have writer := holds.writer
  have bound := holds.writer_le
  have reserve := holds.reserve
  have small := holds.small
  have total : b.buffer.length = front.length + bytes.length + back.length := by
    rw [layout]
    simp only [List.length_append]
  unfold Buffer.ensureWritableBytes Buffer.Throws
  by_cases room : len ≤ b.writableBytes
  · rw [if_neg (by omega)]
    exact Or.inr ⟨b, rfl, holds, room, Or.inl le_rfl⟩
  have free := holds.writableBytes
  have sum : SizeT.add len kCheapPrepend = len + kCheapPrepend := SizeT.add_of_lt (by omega)
  have spare : SizeT.add b.writableBytes b.prependableBytes = b.buffer.length - b.writerIndex + b.readerIndex := by
    rw [free, Buffer.prependableBytes, SizeT.add_of_lt (by omega)]
  rw [if_pos (by omega)]
  by_cases grow : SizeT.add b.writableBytes b.prependableBytes < SizeT.add len kCheapPrepend
  · rw [Buffer.makeSpace, if_pos grow, SizeT.add_of_lt width, Buffer.resize]
    rw [spare, sum] at grow
    by_cases large : b.writerIndex + len < 2 ^ 63
    · rw [if_pos large, List.take_of_length_le (by omega)]
      have grown : Holds { b with buffer := b.buffer ++ List.replicate (b.writerIndex + len - b.buffer.length) 0 } bytes := by
        refine ⟨⟨front, back ++ List.replicate (b.writerIndex + len - b.buffer.length) 0, ?_, length⟩, reserve, writer, ?_⟩
        · simp [layout]
        · simp only [List.length_append, List.length_replicate]
          omega
      refine Or.inr ⟨_, rfl, grown, ?_, Or.inr ⟨?_, by omega⟩⟩
      · rw [grown.writableBytes]
        simp only [List.length_append, List.length_replicate]
        omega
      · simp only [List.length_append, List.length_replicate]
        omega
    · rw [if_neg large]
      exact Or.inl ⟨by omega, by omega, rfl⟩
  · obtain ⟨moved, slid, next, size, reader⟩ := holds.makeSpace_slides grow
    have next_writer := next.writer
    rw [spare, sum] at grow
    refine Or.inr ⟨moved, slid, next, ?_, Or.inl size.le⟩
    rw [next.writableBytes]
    omega

/-- A request within reason is met, and the vector gets no larger than what
both bounds allow. -/
theorem ensureWritableBytes (holds : b.Holds bytes) {len : Nat} (fits : b.buffer.length + len < 2 ^ 63) :
    ∃ b', b.ensureWritableBytes len = some b' ∧ b'.Holds bytes ∧ len ≤ b'.writableBytes ∧
      b'.buffer.length ≤ b.buffer.length + len ∧
      (b'.buffer.length ≤ b.buffer.length ∨ b'.buffer.length ≤ bytes.length + 2 * len + kCheapPrepend) := by
  have writer := holds.writer
  have bound := holds.writer_le
  rcases holds.ensureWritableBytes_cases (show b.writerIndex + len < 2 ^ 64 by omega) with
    ⟨-, -, refused⟩ | ⟨b', done, next, room, size⟩
  · rw [SizeT.add_of_lt (by omega), Buffer.resize, if_pos (by omega)] at refused
    cases refused
  · exact ⟨b', done, next, room, by omega, by omega⟩

/-- Bytes written where writing begins, once the index has moved past them. -/
theorem write (holds : b.Holds bytes) {data : List UInt8} (room : data.length ≤ b.writableBytes) :
    ∃ b', b.write b.writerIndex data = some b' ∧ b'.writerIndex = b.writerIndex ∧ b'.Holds bytes ∧
      b'.buffer.length = b.buffer.length ∧
      Holds { b' with writerIndex := SizeT.add b'.writerIndex data.length } (bytes ++ data) := by
  obtain ⟨front, back, layout, length⟩ := holds.layout
  have writer := holds.writer
  have bound := holds.writer_le
  have small := holds.small
  rw [holds.writableBytes] at room
  have start : b.buffer.take b.writerIndex = front ++ bytes := by
    rw [layout, writer, ← length, ← List.length_append]
    exact List.take_left
  have size : (front ++ bytes ++ data ++ b.buffer.drop (b.writerIndex + data.length)).length = b.buffer.length := by
    simp only [List.length_append, List.length_drop]
    omega
  rw [Buffer.write, if_pos (by omega), start]
  refine ⟨_, rfl, rfl, ?_, size, ?_⟩
  · refine ⟨⟨front, data ++ b.buffer.drop (b.writerIndex + data.length), ?_, length⟩, holds.reserve, writer, ?_⟩
    · simp
    · exact size.trans_lt small
  · refine ⟨⟨front, b.buffer.drop (b.writerIndex + data.length), ?_, length⟩, holds.reserve, ?_, size.trans_lt small⟩
    · simp
    · simp only [List.length_append]
      rw [SizeT.add_of_lt (by omega)]
      omega

theorem append (holds : b.Holds bytes) {data : List UInt8} (fits : b.buffer.length + data.length < 2 ^ 63) :
    ∃ b', b.append data = some b' ∧ b'.Holds (bytes ++ data) ∧
      b'.buffer.length ≤ b.buffer.length + data.length := by
  obtain ⟨made, made_eq, made_holds, room, size, _⟩ := holds.ensureWritableBytes fits
  obtain ⟨written, written_eq, _, _, same, done⟩ := made_holds.write room
  refine ⟨_, ?_, done, ?_⟩
  · simp [Buffer.append, made_eq, written_eq]
  · simp only [same]
    exact size

theorem receive (holds : b.Holds bytes) {data : List UInt8} {made : Buffer}
    (fits : b.buffer.length + RecvIntoBufferAwaiter.kMinRecvSize < 2 ^ 63)
    (made_eq : b.ensureWritableBytes RecvIntoBufferAwaiter.kMinRecvSize = some made)
    (room : data.length ≤ made.writableBytes) :
    ∃ b', b.receive data = some b' ∧ b'.Holds (bytes ++ data) ∧ (b'.buffer.length ≤ b.buffer.length ∨
      b'.buffer.length ≤ bytes.length + 2 * RecvIntoBufferAwaiter.kMinRecvSize + kCheapPrepend) := by
  obtain ⟨other, other_eq, made_holds, _, _, size⟩ := holds.ensureWritableBytes fits
  cases Option.some.inj (made_eq.symm.trans other_eq)
  obtain ⟨written, written_eq, index, written_holds, same, done⟩ := made_holds.write room
  have unchanged : written.writableBytes = made.writableBytes := by
    rw [written_holds.writableBytes, made_holds.writableBytes, same, index]
  by_cases some_bytes : 0 < data.length
  · refine ⟨_, ?_, done, ?_⟩
    · simp [Buffer.receive, made_eq, written_eq, some_bytes, Buffer.hasWritten, unchanged, room]
    · simp only [same]
      exact size
  · have nothing : data = [] := List.eq_nil_of_length_eq_zero (by omega)
    subst nothing
    refine ⟨written, ?_, ?_, ?_⟩
    · simp [Buffer.receive, made_eq, written_eq]
    · simpa using written_holds
    · rw [same]
      exact size

theorem retrieveAsString (holds : b.Holds bytes) {len : Nat} (within : len ≤ bytes.length) :
    b.retrieveAsString len = some (bytes.take len, b.retrieve len) := by
  simp [Buffer.retrieveAsString, holds.read within]

theorem retrieveAllAsString (holds : b.Holds bytes) : b.retrieveAllAsString = some (bytes, b.retrieveAll) := by
  have all : b.retrieve bytes.length = b.retrieveAll := by
    simp [Buffer.retrieve, holds.readableBytes]
  rw [Buffer.retrieveAllAsString, holds.readableBytes, holds.retrieveAsString le_rfl, all, List.take_length]

end Buffer.Holds

theorem Buffer.make_holds {initialSize : Nat} (fits : Buffer.kCheapPrepend + initialSize < 2 ^ 63) :
    (Buffer.make initialSize).Holds [] := by
  have size : SizeT.add Buffer.kCheapPrepend initialSize = Buffer.kCheapPrepend + initialSize :=
    SizeT.add_of_lt (by omega)
  refine ⟨⟨List.replicate Buffer.kCheapPrepend 0, List.replicate initialSize 0, ?_, by simp [Buffer.make]⟩, ?_, rfl, ?_⟩
  · rw [List.append_nil, List.replicate_append_replicate, ← size, Buffer.make]
  · simp [Buffer.make]
  · simpa [Buffer.make, size] using fits

end CoroNet
