import CoroNet.General.Runs
import CoroNet.Memory.Buffer

namespace CoroNet.Buffer

open Transition

/-- What can be done with a buffer, whatever the arguments. `fill` puts bytes
behind `beginWrite()`, as the kernel does before `hasWritten`. -/
inductive Use
  | append (data : List UInt8)
  | fill (data : List UInt8)
  | hasWritten (n : Nat)
  | ensureWritableBytes (len : Nat)
  | retrieve (len : Nat)
  | retrieveAll
  | retrieveAsString (len : Nat)
  | retrieveAllAsString

/-- An object in memory has fewer than 2^63 bytes, a `size_t` is below 2^64. -/
def Use.Sized : Use → Prop
  | .append data | .fill data => data.length < 2 ^ 63
  | .hasWritten len | .ensureWritableBytes len | .retrieve len | .retrieveAsString len => len < 2 ^ 64
  | .retrieveAll | .retrieveAllAsString => True

instance : DecidablePred Use.Sized := by
  intro u
  cases u <;> unfold Use.Sized <;> infer_instance

def use (b : Buffer) : Use → Option Buffer
  | .append data => b.append data
  | .fill data => b.write b.writerIndex data
  | .hasWritten n => b.hasWritten n
  | .ensureWritableBytes len => b.ensureWritableBytes len
  | .retrieve len => some (b.retrieve len)
  | .retrieveAll => some b.retrieveAll
  | .retrieveAsString len => (b.retrieveAsString len).map Prod.snd
  | .retrieveAllAsString => b.retrieveAllAsString.map Prod.snd

/-- A step of the buffer's user; there is none after an exception or where
bytes outside the vector are touched. -/
def useStep (b : Buffer) (u : Use) : Option Buffer := if u.Sized then b.use u else none

/-- The constructor, which throws where the vector would be too large. -/
def construct (initialSize : Nat) : Option Buffer :=
  if SizeT.add kCheapPrepend initialSize < 2 ^ 63 then some (make initialSize) else none

/-- The members are within their types. -/
structure Typed (b : Buffer) : Prop where
  size : b.buffer.length < 2 ^ 63
  reader : b.readerIndex < 2 ^ 64
  writer : b.writerIndex < 2 ^ 64

variable {b b' b₀ : Buffer} {bytes s : List UInt8} {len index initialSize : Nat} {u : Use} {uses : List Use}

theorem kCheapPrepend_lt : kCheapPrepend < 2 ^ 64 := by decide

theorem retrieveAsString_snd {result : List UInt8 × Buffer} (done : b.retrieveAsString len = some result) :
    result.2 = b.retrieve len := by
  simp only [retrieveAsString, Option.bind_eq_bind, Option.bind_eq_some_iff] at done
  obtain ⟨_, -, eq⟩ := done
  cases Option.some.inj eq
  rfl

namespace Typed

theorem construct (made : Buffer.construct initialSize = some b) : b.Typed := by
  obtain ⟨fits, eq⟩ := Option.ite_none_right_eq_some.mp made
  cases Option.some.inj eq
  exact ⟨by simpa [make] using fits, kCheapPrepend_lt, kCheapPrepend_lt⟩

theorem write (typed : b.Typed) {data : List UInt8} (done : b.write index data = some b') :
    b'.Typed ∧ b'.readerIndex = b.readerIndex ∧ b'.writerIndex = b.writerIndex := by
  have size := (write_length done).trans_lt typed.size
  obtain ⟨inside, eq⟩ := Option.ite_none_right_eq_some.mp done
  cases Option.some.inj eq
  exact ⟨⟨size, typed.reader, typed.writer⟩, rfl, rfl⟩

theorem retrieveAll (typed : b.Typed) : b.retrieveAll.Typed :=
  ⟨typed.size, kCheapPrepend_lt, kCheapPrepend_lt⟩

theorem retrieve (typed : b.Typed) (len : Nat) : (b.retrieve len).Typed := by
  unfold Buffer.retrieve
  split
  · exact ⟨typed.size, SizeT.add_lt _ _, typed.writer⟩
  · exact typed.retrieveAll

theorem resize (typed : b.Typed) (done : b.resize len = some b') : b'.Typed := by
  obtain ⟨fits, eq⟩ := Option.ite_none_right_eq_some.mp done
  cases Option.some.inj eq
  refine ⟨?_, typed.reader, typed.writer⟩
  simp only [List.length_append, List.length_take, List.length_replicate]
  omega

theorem ensureWritableBytes (typed : b.Typed) (done : b.ensureWritableBytes len = some b') : b'.Typed := by
  unfold Buffer.ensureWritableBytes Buffer.makeSpace at done
  split at done
  · split at done
    · exact typed.resize done
    · simp only [Option.bind_eq_bind, Option.bind_eq_some_iff] at done
      obtain ⟨moved, -, written, write_eq, eq⟩ := done
      cases Option.some.inj eq
      have same := (typed.write write_eq).1
      exact ⟨same.size, kCheapPrepend_lt, SizeT.add_lt _ _⟩
  · cases Option.some.inj done
    exact typed

theorem retrieveAsString (typed : b.Typed) {result : List UInt8 × Buffer}
    (done : b.retrieveAsString len = some result) : result.2.Typed := by
  rw [retrieveAsString_snd done]
  exact typed.retrieve len

theorem step (typed : b.Typed) (move : useStep b u = some b') : b'.Typed := by
  obtain ⟨-, done⟩ := Option.ite_none_right_eq_some.mp move
  cases u with
  | append data =>
    simp only [use, append, Option.bind_eq_bind, Option.bind_eq_some_iff] at done
    obtain ⟨made, made_eq, written, write_eq, eq⟩ := done
    cases Option.some.inj eq
    have same := ((typed.ensureWritableBytes made_eq).write write_eq).1
    exact ⟨same.size, same.reader, SizeT.add_lt _ _⟩
  | fill data => exact (typed.write done).1
  | hasWritten n =>
    obtain ⟨_, eq⟩ := Option.ite_none_right_eq_some.mp done
    cases Option.some.inj eq
    exact ⟨typed.size, typed.reader, SizeT.add_lt _ _⟩
  | ensureWritableBytes len => exact typed.ensureWritableBytes done
  | retrieve len =>
    cases Option.some.inj done
    exact typed.retrieve len
  | retrieveAll =>
    cases Option.some.inj done
    exact typed.retrieveAll
  | retrieveAsString len =>
    obtain ⟨result, taken, eq⟩ := Option.map_eq_some_iff.mp done
    cases eq
    exact typed.retrieveAsString taken
  | retrieveAllAsString =>
    obtain ⟨result, taken, eq⟩ := Option.map_eq_some_iff.mp done
    cases eq
    exact typed.retrieveAsString taken

theorem run (made : Buffer.construct initialSize = some b₀) (reach : Run useStep b₀ uses b) : b.Typed :=
  reach.invariant (construct made) fun typed move => typed.step move

end Typed

/-- `retrieveAsString` returns the first readable bytes and removes these. -/
def Exact (b : Buffer) (len : Nat) : Prop :=
  ∃ b', b.retrieveAsString len = some (b.readable.take (min len b.readableBytes), b') ∧ b' = b.retrieve len ∧
    b'.readable = b.readable.drop (min len b.readableBytes)

theorem retrieveAsString_eq (inside : b.readerIndex + len ≤ b.buffer.length) :
    b.retrieveAsString len = some ((b.buffer.drop b.readerIndex).take len, b.retrieve len) := by
  simp [Buffer.retrieveAsString, Buffer.read, inside]

/-- What stays readable behind bytes that are taken away. -/
theorem retrieve_readable (typed : b.Typed) (within : len ≤ b.readableBytes)
    (inside : b.readerIndex + len ≤ b.buffer.length) : (b.retrieve len).readable = b.readable.drop len := by
  have size := typed.size
  have writer := typed.writer
  unfold Buffer.retrieve
  by_cases part : len < b.readableBytes
  · have moved : SizeT.add b.readerIndex len = b.readerIndex + len := SizeT.add_of_lt (by omega)
    have left : SizeT.sub b.writerIndex (b.readerIndex + len) = b.readableBytes - len := by
      unfold Buffer.readableBytes SizeT.sub at *
      omega
    rw [if_pos part, moved, Buffer.readable, Buffer.readable, Buffer.readableBytes, left, List.drop_take, List.drop_drop]
  · have all : len = b.readableBytes := by omega
    have none_left : b.retrieveAll.readableBytes = 0 :=
      (SizeT.sub_of_le le_rfl kCheapPrepend_lt).trans (Nat.sub_self _)
    have empty : b.retrieveAll.readable = [] := by
      rw [Buffer.readable, none_left, List.take_zero]
    rw [if_neg part, empty, all, Buffer.readable, List.drop_take, Nat.sub_self, List.take_zero]

/-- In every state the string is right exactly when no more bytes are asked
for than are readable, and the vector has them. -/
theorem exact_iff (typed : b.Typed) :
    b.Exact len ↔ len ≤ b.readableBytes ∧ b.readerIndex + len ≤ b.buffer.length := by
  constructor
  · rintro ⟨b', taken, -⟩
    by_cases inside : b.readerIndex + len ≤ b.buffer.length
    · rw [retrieveAsString_eq inside] at taken
      have string := congrArg List.length (congrArg Prod.fst (Option.some.inj taken))
      simp only [Buffer.readable, List.length_take, List.length_drop] at string
      omega
    · simp [Buffer.retrieveAsString, Buffer.read, inside] at taken
  · rintro ⟨within, inside⟩
    refine ⟨b.retrieve len, ?_, rfl, ?_⟩
    · rw [retrieveAsString_eq inside, min_eq_left within, Buffer.readable, List.take_take, min_eq_left within]
    · rw [min_eq_left within, retrieve_readable typed within inside]

/-- Over every run of a buffer: `retrieveAsString` is exact if and only if it
is asked for no more than there is. -/
theorem retrieveAsString_exact_iff (made : construct initialSize = some b₀) (reach : Run useStep b₀ uses b) (len : Nat) :
    b.Exact len ↔ len ≤ b.readableBytes ∧ b.readerIndex + len ≤ b.buffer.length :=
  exact_iff (Typed.run made reach)

/-- A message is read and a shorter one comes in its place. -/
def shorterMessage : List Use := [.append [115, 101, 99, 114, 101, 116], .retrieveAll, .append [97, 98]]

theorem shorter_message_exact :
    (after useStep (make 8) shorterMessage).Exact 2 ↔
      2 ≤ (after useStep (make 8) shorterMessage).readableBytes ∧
        (after useStep (make 8) shorterMessage).readerIndex + 2 ≤
          (after useStep (make 8) shorterMessage).buffer.length :=
  retrieveAsString_exact_iff (if_pos (by decide)) (run_after (by decide +kernel)) 2

/-- The end of the older message comes along. -/
theorem older_message_revealed :
    Run useStep (make 8) shorterMessage (after useStep (make 8) shorterMessage) ∧
      (after useStep (make 8) shorterMessage).readable = [97, 98] ∧
      ((after useStep (make 8) shorterMessage).retrieveAsString 6).map Prod.fst = some [97, 98, 99, 114, 101, 116] ∧
      ¬ (after useStep (make 8) shorterMessage).Exact 6 := by
  have reach : Run useStep (make 8) shorterMessage (after useStep (make 8) shorterMessage) :=
    run_after (by decide +kernel)
  have typed := Typed.run (if_pos (by decide) : construct 8 = some (make 8)) reach
  have few : ¬ 6 ≤ (after useStep (make 8) shorterMessage).readableBytes := by decide +kernel
  exact ⟨reach, by decide +kernel, by decide +kernel, fun exactly => few ((exact_iff typed).mp exactly).1⟩

/-- `ensureWritableBytes` throws and leaves the buffer unchanged, or makes room
and keeps the readable bytes inside the vector. -/
def Honest (b : Buffer) (len : Nat) : Prop :=
  b.Throws len ∨ ∃ b', b.ensureWritableBytes len = some b' ∧ len ≤ b'.writableBytes ∧ b'.readable = b.readable ∧
    kCheapPrepend ≤ b'.readerIndex ∧ b'.readerIndex ≤ b'.writerIndex ∧ b'.writerIndex ≤ b'.buffer.length

theorem Throws.none (throws : b.Throws len) : b.ensureWritableBytes len = none := by
  obtain ⟨short, grow, refused⟩ := throws
  rw [Buffer.ensureWritableBytes, if_pos short, makeSpace, if_pos grow, refused]

/-- A request whose end has no `size_t` is met by shrinking the vector, or by
sliding the bytes when its sum with the reserve wraps as well. -/
theorem not_honest (holds : b.Holds bytes) (width : len < 2 ^ 64) (wraps : 2 ^ 64 ≤ b.writerIndex + len) :
    ¬ b.Honest len := by
  have writer := holds.writer
  have bound := holds.writer_le
  have small := holds.small
  have reserve := holds.reserve
  have free := holds.writableBytes
  have short : b.writableBytes < len := by omega
  obtain ⟨size, past⟩ := Nat.exists_eq_add_of_le wraps
  have ended : SizeT.add b.writerIndex len = size := by
    unfold SizeT.add
    omega
  have shrunk : size < b.writerIndex := by omega
  have shrinks : b.resize (SizeT.add b.writerIndex len) ≠ none := by
    rw [ended, resize, if_pos (by omega)]
    exact Option.some_ne_none _
  rintro (⟨-, -, refused⟩ | ⟨b', done, room, -, -, -, within⟩)
  · exact shrinks refused
  rw [Buffer.ensureWritableBytes, if_pos short] at done
  by_cases grow : SizeT.add b.writableBytes b.prependableBytes < SizeT.add len kCheapPrepend
  · rw [makeSpace, if_pos grow, ended, resize, if_pos (by omega)] at done
    cases Option.some.inj done
    simp only [List.length_append, List.length_take, List.length_replicate] at within
    clear wraps past
    omega
  · obtain ⟨moved, slid, next, same, reader⟩ := holds.makeSpace_slides grow
    cases Option.some.inj (done.symm.trans slid)
    rw [next.writableBytes] at room
    omega

theorem honest_iff (holds : b.Holds bytes) (width : len < 2 ^ 64) : b.Honest len ↔ b.writerIndex + len < 2 ^ 64 := by
  constructor
  · intro honest
    by_contra wraps
    exact not_honest holds width (by omega) honest
  · intro fits
    rcases holds.ensureWritableBytes_cases fits with throws | ⟨b', done, next, room, -⟩
    · exact Or.inl throws
    · have writer := next.writer
      exact Or.inr ⟨b', done, room, next.readable.trans holds.readable.symm, next.reserve, by omega, next.writer_le⟩

/-- An initial size whose sum with the reserve wraps gives a vector without
the reserve. -/
theorem wrapped_start (made : construct initialSize = some b) (wraps : 2 ^ 64 ≤ kCheapPrepend + initialSize)
    (width : initialSize < 2 ^ 64) : ¬ b.Honest 0 := by
  obtain ⟨-, eq⟩ := Option.ite_none_right_eq_some.mp made
  cases Option.some.inj eq
  obtain ⟨size, past⟩ := Nat.exists_eq_add_of_le wraps
  have few : size < kCheapPrepend := by omega
  have length : (make initialSize).buffer.length = size := by
    rw [make, List.length_replicate, SizeT.add, past, Nat.add_mod_left, Nat.mod_eq_of_lt (few.trans kCheapPrepend_lt)]
  have plenty : ¬ (make initialSize).writableBytes < 0 := Nat.not_lt_zero _
  rintro (⟨short, -⟩ | ⟨b', done, -, -, -, -, within⟩)
  · exact plenty short
  · rw [Buffer.ensureWritableBytes, if_neg plenty] at done
    cases Option.some.inj done
    rw [length] at within
    exact absurd within (Nat.not_le.mpr few)

/-- The end of the room that is asked for has a `size_t`. -/
def Use.fits (b : Buffer) : Use → Bool
  | .ensureWritableBytes len => decide (b.writerIndex + len < 2 ^ 64)
  | _ => true

namespace Holds

theorem construct (made : Buffer.construct initialSize = some b) (fits : kCheapPrepend + initialSize < 2 ^ 64) :
    b.Holds [] := by
  obtain ⟨small, eq⟩ := Option.ite_none_right_eq_some.mp made
  cases Option.some.inj eq
  rw [SizeT.add_of_lt fits] at small
  exact make_holds small

theorem hasWritten (holds : b.Holds bytes) {n : Nat} (done : b.hasWritten n = some b') :
    ∃ more, b'.Holds (bytes ++ more) := by
  obtain ⟨room, eq⟩ := Option.ite_none_right_eq_some.mp done
  cases Option.some.inj eq
  obtain ⟨front, back, layout, length⟩ := holds.layout
  have writer := holds.writer
  have bound := holds.writer_le
  have small := holds.small
  have total : b.buffer.length = front.length + bytes.length + back.length := by
    rw [layout]
    simp only [List.length_append]
  rw [holds.writableBytes] at room
  refine ⟨back.take n, ⟨front, back.drop n, ?_, length⟩, holds.reserve, ?_, small⟩
  · simp [layout]
  · simp only [List.length_append, List.length_take]
    rw [SizeT.add_of_lt (by omega)]
    omega

theorem fill (holds : b.Holds bytes) {data : List UInt8} (done : b.write b.writerIndex data = some b') :
    b'.Holds bytes := by
  have inside := (Option.ite_none_right_eq_some.mp done).1
  have room : data.length ≤ b.writableBytes := by
    rw [holds.writableBytes]
    omega
  obtain ⟨other, other_eq, -, next, -⟩ := holds.write room
  cases Option.some.inj (done.symm.trans other_eq)
  exact next

theorem takes (holds : b.Holds bytes) (done : (b.retrieveAsString len).map Prod.snd = some b') :
    ∃ bytes', b'.Holds bytes' := by
  obtain ⟨result, taken, rfl⟩ := Option.map_eq_some_iff.mp done
  rw [retrieveAsString_snd taken]
  exact ⟨_, holds.retrieve len⟩

theorem useStep (holds : b.Holds bytes) (fits : u.fits b = true) (move : useStep b u = some b') :
    ∃ bytes', b'.Holds bytes' := by
  obtain ⟨sized, done⟩ := Option.ite_none_right_eq_some.mp move
  have writer := holds.writer_le
  have small := holds.small
  cases u with
  | append data =>
    have object : data.length < 2 ^ 63 := sized
    simp only [use, Buffer.append, Option.bind_eq_bind, Option.bind_eq_some_iff] at done
    obtain ⟨made, made_eq, written, write_eq, eq⟩ := done
    cases Option.some.inj eq
    rcases holds.ensureWritableBytes_cases (show b.writerIndex + data.length < 2 ^ 64 by omega) with
      throws | ⟨other, other_eq, next, room, -⟩
    · rw [throws.none] at made_eq
      cases made_eq
    · cases Option.some.inj (made_eq.symm.trans other_eq)
      obtain ⟨same, same_eq, -, -, -, appended⟩ := next.write room
      cases Option.some.inj (write_eq.symm.trans same_eq)
      exact ⟨_, appended⟩
  | fill data => exact ⟨bytes, holds.fill done⟩
  | hasWritten n =>
    obtain ⟨more, next⟩ := holds.hasWritten done
    exact ⟨_, next⟩
  | ensureWritableBytes len =>
    have width : b.writerIndex + len < 2 ^ 64 := of_decide_eq_true fits
    rcases holds.ensureWritableBytes_cases width with throws | ⟨other, other_eq, next, -⟩
    · rw [use, throws.none] at done
      cases done
    · cases Option.some.inj (done.symm.trans other_eq)
      exact ⟨bytes, next⟩
  | retrieve len =>
    cases Option.some.inj done
    exact ⟨_, holds.retrieve len⟩
  | retrieveAll =>
    cases Option.some.inj done
    exact ⟨_, holds.retrieveAll⟩
  | retrieveAsString len => exact holds.takes done
  | retrieveAllAsString => exact holds.takes done

theorem run (made : Buffer.construct initialSize = some b₀) (start : kCheapPrepend + initialSize < 2 ^ 64)
    (reach : RunWhile Buffer.useStep (fun b u => u.fits b = true) b₀ uses b) : ∃ bytes, b.Holds bytes := by
  refine RunWhile.invariant (P := fun b => ∃ bytes, b.Holds bytes) reach ⟨[], construct made start⟩ ?_
  intro b u b' ⟨bytes, holds⟩ fits move
  exact holds.useStep fits move

/-- There `retrieveAsString` is only asked not to take more than there is. -/
theorem exact_iff (holds : b.Holds bytes) : b.Exact len ↔ len ≤ b.readableBytes := by
  have writer := holds.writer
  have bound := holds.writer_le
  have small := holds.small
  have typed : b.Typed := ⟨small, by omega, by omega⟩
  rw [Buffer.exact_iff typed, holds.readableBytes]
  omega

end Holds

/-- As long as the room asked for ends within `size_t` every request is
answered honestly, and the first one that does not is not. A buffer whose
initial size wraps does not even answer the first one. -/
theorem ensureWritableBytes_honest_iff (made : construct initialSize = some b₀) (known : initialSize < 2 ^ 64)
    (reach : RunWhile useStep (fun b u => u.fits b = true) b₀ uses b) (width : len < 2 ^ 64) :
    (kCheapPrepend + initialSize < 2 ^ 64 → (b.Honest len ↔ b.writerIndex + len < 2 ^ 64)) ∧
      (2 ^ 64 ≤ kCheapPrepend + initialSize → ¬ b₀.Honest 0) := by
  refine ⟨fun start => ?_, fun wraps => wrapped_start made wraps known⟩
  obtain ⟨bytes, holds⟩ := Holds.run made start reach
  exact honest_iff holds width

theorem grown_buffer_honest :
    (after (guarded (fun b u => u.fits b) useStep) (make 8) [.append [1, 2, 3], .ensureWritableBytes 20]).Honest 100 ↔
      (after (guarded (fun b u => u.fits b) useStep) (make 8)
        [.append [1, 2, 3], .ensureWritableBytes 20]).writerIndex + 100 < 2 ^ 64 :=
  (ensureWritableBytes_honest_iff (if_pos (by decide)) (by decide) (guarded_run (run_after (by decide +kernel)))
    (by decide)).1 (by decide)

/-- A full buffer is asked for nearly all bytes a `size_t` can count, and is
left with less than it had. -/
theorem full_buffer_shrinks :
    Run useStep (make 2) [.append [1, 2]] (after useStep (make 2) [.append [1, 2]]) ∧
      ((after useStep (make 2) [.append [1, 2]]).ensureWritableBytes (2 ^ 64 - 9)).map
        (fun b => (b.buffer.length, b.writerIndex)) = some (1, 10) ∧
      ¬ (after useStep (make 2) [.append [1, 2]]).Honest (2 ^ 64 - 9) := by
  have reach : RunWhile useStep (fun b u => u.fits b = true) (make 2) [.append [1, 2]]
      (after (guarded (fun b u => u.fits b) useStep) (make 2) [.append [1, 2]]) :=
    guarded_run (run_after (by decide +kernel))
  obtain ⟨bytes, holds⟩ := Holds.run (if_pos (by decide) : construct 2 = some (make 2)) (by decide) reach
  exact ⟨run_after (by decide +kernel), by decide +kernel, not_honest holds (by decide) (by decide +kernel)⟩

end CoroNet.Buffer
