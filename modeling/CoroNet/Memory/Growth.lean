import CoroNet.Memory.Requests

namespace CoroNet.Buffer

open Transition

/-- The room that is asked for. -/
def Use.request : Use → Option Nat
  | .append data => some data.length
  | .ensureWritableBytes len => some len
  | _ => none

/-- A request is for at most `L` bytes and comes when at most `R` bytes are readable. -/
def Use.modest (R L : Nat) (b : Buffer) (u : Use) : Bool :=
  match u.request with
  | some len => decide (len ≤ L ∧ b.readableBytes ≤ R)
  | none => true

/-- What a reception does with the buffer: `await_suspend`, the kernel, and
`on_complete`. -/
def receiveUses (data : List UInt8) : List Use :=
  [.ensureWritableBytes RecvIntoBufferAwaiter.kMinRecvSize, .fill data] ++
    if 0 < data.length then [.hasWritten data.length] else []

variable {b b' b₀ : Buffer} {bytes data : List UInt8} {len index initialSize R L : Nat} {u : Use} {uses : List Use}

/-- A reception is a run of these, and a modest one if the room it asks for is. -/
theorem receive_run (object : data.length < 2 ^ 63) (small : RecvIntoBufferAwaiter.kMinRecvSize ≤ L)
    (few : b.readableBytes ≤ R) (done : b.receive data = some b') :
    RunWhile useStep (fun b u => u.modest R L b = true) b (receiveUses data) b' := by
  simp only [receive, Option.bind_eq_bind, Option.bind_eq_some_iff] at done
  obtain ⟨made, made_eq, written, write_eq, last⟩ := done
  have suspend : useStep b (.ensureWritableBytes RecvIntoBufferAwaiter.kMinRecvSize) = some made :=
    (if_pos (show RecvIntoBufferAwaiter.kMinRecvSize < 2 ^ 64 by decide)).trans made_eq
  have fill : useStep made (.fill data) = some written := (if_pos object).trans write_eq
  have modest : (Use.ensureWritableBytes RecvIntoBufferAwaiter.kMinRecvSize).modest R L b = true :=
    decide_eq_true ⟨small, few⟩
  have asked : RunWhile useStep (fun b u => u.modest R L b = true) b
      [.ensureWritableBytes RecvIntoBufferAwaiter.kMinRecvSize] made := RunWhile.start.next modest suspend
  have received := asked.next rfl fill
  unfold receiveUses
  split at last
  next some_bytes =>
    have complete : useStep written (.hasWritten data.length) = some b' :=
      (if_pos (show data.length < 2 ^ 64 by omega)).trans last
    rw [if_pos some_bytes]
    exact received.next rfl complete
  next nothing =>
    cases Option.some.inj last
    rw [if_neg nothing]
    exact received

/-- A vector that grows has room for what is readable, and twice for what is
asked for: the reader was not far enough for a slide. -/
theorem Holds.ensureWritableBytes_length (holds : b.Holds bytes) (width : b.writerIndex + len < 2 ^ 64)
    (done : b.ensureWritableBytes len = some b') :
    b'.buffer.length ≤ max b.buffer.length (b.readableBytes + 2 * len + kCheapPrepend) := by
  have writer := holds.writer
  rw [holds.readableBytes]
  rcases holds.ensureWritableBytes_cases width with throws | ⟨made, made_eq, -, -, size⟩
  · rw [throws.none] at done
    cases done
  · cases Option.some.inj (done.symm.trans made_eq)
    omega

theorem retrieveAsString_buffer (done : (b.retrieveAsString len).map Prod.snd = some b') : b'.buffer = b.buffer := by
  obtain ⟨result, taken, rfl⟩ := Option.map_eq_some_iff.mp done
  rw [retrieveAsString_snd taken, retrieve_buffer]

/-- Only a request makes the vector larger. -/
theorem Holds.useStep_length (holds : b.Holds bytes) (fits : u.fits b = true) (move : Buffer.useStep b u = some b') :
    b'.buffer.length ≤ b.buffer.length ∨
      ∃ len, u.request = some len ∧
        b'.buffer.length ≤ max b.buffer.length (b.readableBytes + 2 * len + kCheapPrepend) := by
  obtain ⟨sized, done⟩ := Option.ite_none_right_eq_some.mp move
  have writer := holds.writer_le
  have small := holds.small
  cases u with
  | append data =>
    have object : data.length < 2 ^ 63 := sized
    simp only [use, Buffer.append, Option.bind_eq_bind, Option.bind_eq_some_iff] at done
    obtain ⟨made, made_eq, written, write_eq, eq⟩ := done
    cases Option.some.inj eq
    have length := holds.ensureWritableBytes_length (show b.writerIndex + data.length < 2 ^ 64 by omega) made_eq
    exact Or.inr ⟨data.length, rfl, (write_length write_eq).trans_le length⟩
  | ensureWritableBytes len =>
    exact Or.inr ⟨len, rfl, holds.ensureWritableBytes_length (of_decide_eq_true fits) done⟩
  | fill data => exact Or.inl (write_length done).le
  | hasWritten n =>
    obtain ⟨_, eq⟩ := Option.ite_none_right_eq_some.mp done
    cases Option.some.inj eq
    exact Or.inl le_rfl
  | retrieve len =>
    cases Option.some.inj done
    exact Or.inl (congrArg List.length (retrieve_buffer b len)).le
  | retrieveAll =>
    cases Option.some.inj done
    exact Or.inl le_rfl
  | retrieveAsString len => exact Or.inl (congrArg List.length (retrieveAsString_buffer done)).le
  | retrieveAllAsString => exact Or.inl (congrArg List.length (retrieveAsString_buffer done)).le

/-- Modest requests keep a vector within the bound there. -/
theorem Holds.bounded_step {bound : Nat} (holds : b.Holds bytes) (size : b.buffer.length ≤ bound)
    (enough : R + 2 * L + kCheapPrepend ≤ bound) (address : bound < 2 ^ 63) (modest : u.modest R L b = true)
    (move : Buffer.useStep b u = some b') : (∃ bytes', b'.Holds bytes') ∧ b'.buffer.length ≤ bound := by
  have asked : ∀ len, u.request = some len → len ≤ L ∧ b.readableBytes ≤ R := by
    intro len request
    rw [Use.modest, request] at modest
    exact of_decide_eq_true modest
  have writer := holds.writer_le
  have fits : u.fits b = true := by
    cases u with
    | ensureWritableBytes len =>
      have within := (asked len rfl).1
      exact decide_eq_true (by omega)
    | _ => rfl
  refine ⟨holds.useStep fits move, ?_⟩
  rcases holds.useStep_length fits move with same | ⟨len, request, length⟩
  · exact same.trans size
  · obtain ⟨within, few⟩ := asked len request
    omega

theorem run_bounded (made : construct initialSize = some b₀)
    (reach : RunWhile useStep (fun b u => u.modest R L b = true) b₀ uses b) :
    b.buffer.length ≤ max (kCheapPrepend + initialSize) (R + 2 * L + kCheapPrepend) := by
  by_cases address : max (kCheapPrepend + initialSize) (R + 2 * L + kCheapPrepend) < 2 ^ 63
  · have start : kCheapPrepend + initialSize < 2 ^ 63 := by omega
    have holds := Holds.construct made (by omega)
    have size : b₀.buffer.length ≤ max (kCheapPrepend + initialSize) (R + 2 * L + kCheapPrepend) := by
      obtain ⟨-, eq⟩ := Option.ite_none_right_eq_some.mp made
      cases Option.some.inj eq
      rw [make, List.length_replicate, SizeT.add_of_lt (by omega)]
      exact le_max_left _ _
    have kept : (∃ bytes, b.Holds bytes) ∧
        b.buffer.length ≤ max (kCheapPrepend + initialSize) (R + 2 * L + kCheapPrepend) := by
      refine RunWhile.invariant (P := fun b => (∃ bytes, b.Holds bytes) ∧
        b.buffer.length ≤ max (kCheapPrepend + initialSize) (R + 2 * L + kCheapPrepend)) reach ⟨⟨[], holds⟩, size⟩ ?_
      intro b u b' before modest move
      obtain ⟨bytes, held⟩ := before.1
      exact held.bounded_step before.2 (le_max_right _ _) address modest move
    exact kept.2
  · -- no vector is that large
    have typed := Typed.run made reach.run
    have size := typed.size
    omega

/-- However many bytes have gone through, the vector has at most the size it
began with, or twice the largest request more than is kept readable. So it has
after a reception. -/
theorem bounded_memory (made : construct initialSize = some b₀)
    (reach : RunWhile useStep (fun b u => u.modest R L b = true) b₀ uses b) :
    b.buffer.length ≤ max (kCheapPrepend + initialSize) (R + 2 * L + kCheapPrepend) ∧
      ∀ data b', data.length < 2 ^ 63 → RecvIntoBufferAwaiter.kMinRecvSize ≤ L → b.readableBytes ≤ R →
        b.receive data = some b' →
        b'.buffer.length ≤ max (kCheapPrepend + initialSize) (R + 2 * L + kCheapPrepend) :=
  ⟨run_bounded made reach, fun _ _ object small few done =>
    run_bounded made (reach.trans (receive_run object small few done))⟩

/-- The reader is one byte short of where the bytes would slide. -/
def driftingUse : List Use := [.append [1, 2, 3], .append [4, 5, 6], .retrieve 3, .ensureWritableBytes 4]

theorem drifting_buffer_bounded :
    (after (guarded (Use.modest 3 4) useStep) (make 6) driftingUse).buffer.length = 18 ∧
      (after (guarded (Use.modest 3 4) useStep) (make 6) driftingUse).buffer.length ≤
        max (kCheapPrepend + 6) (3 + 2 * 4 + kCheapPrepend) :=
  ⟨by decide +kernel, (bounded_memory (if_pos (by decide)) (guarded_run (run_after (by decide +kernel)))).1⟩

end CoroNet.Buffer
