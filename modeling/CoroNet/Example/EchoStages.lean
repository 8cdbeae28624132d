import CoroNet.Connection.Transmit
import CoroNet.Example.EchoHandler

namespace CoroNet.EchoServer

open Coroutine (Kind)
open EventLoop
open Scheduler (shutRdwr)
open TcpConnection (Place Request Sound Transfer send sendFixed wire)

variable {c : Conn} {exchanges : List (Op × Answer)} {data sent : List UInt8} {op : Op} {r : Answer} {buf : Buffer}
  {fixed : Bool} {n : Int} {place : Place} {transcript : List (Request × Int)}

/-- Every send so far has taken something. -/
def Prompt (exchanges : List (Op × Answer)) : Prop := ∀ x ∈ exchanges, x.1.sends = true → 0 < x.2.res

instance : DecidablePred Prompt := fun exchanges => inferInstanceAs (Decidable (∀ x ∈ exchanges, _))

/-- No send so far has taken nothing without an error. -/
def Steady (exchanges : List (Op × Answer)) : Prop := ∀ x ∈ exchanges, x.1.sends = true → x.2.res ≠ 0

/-- What is enough for a connection to send back all it has received: with a
slot it stops at the first error. -/
def Faithful (c : Conn) (exchanges : List (Op × Answer)) : Prop :=
  Prompt exchanges ∨ c.hasFixedSlot = true ∧ Steady exchanges

/-- Behind what has been echoed, `data` has been received and `sent` been confirmed. -/
def Echoed (c : Conn) (exchanges : List (Op × Answer)) (data sent : List UInt8) : Prop :=
  ∃ before echo, received exchanges = before ++ data ∧ confirmed exchanges = echo ++ sent ∧ echo.Sublist before ∧
    (Faithful c exchanges → echo = before)

/-- What holds behind the loops. -/
structure Finished (c : Conn) (exchanges : List (Op × Answer)) : Prop where
  sublist : (confirmed exchanges).Sublist (received exchanges)
  begins : Faithful c exchanges → confirmed exchanges <+: received exchanges
  whole : Prompt exchanges → confirmed exchanges = received exchanges

theorem prompt_append (prompt : Prompt (exchanges ++ [(op, r)])) : Prompt exchanges ∧ (op.sends = true → 0 < r.res) :=
  ⟨fun x member => prompt x (List.mem_append_left _ member),
    prompt (op, r) (List.mem_append_right _ (List.mem_singleton_self _))⟩

theorem steady_append (steady : Steady (exchanges ++ [(op, r)])) : Steady exchanges ∧ (op.sends = true → r.res ≠ 0) :=
  ⟨fun x member => steady x (List.mem_append_left _ member),
    steady (op, r) (List.mem_append_right _ (List.mem_singleton_self _))⟩

theorem Faithful.before (faithful : Faithful c (exchanges ++ [(op, r)])) : Faithful c exchanges :=
  faithful.imp (fun prompt => (prompt_append prompt).1) fun ⟨slot, steady⟩ => ⟨slot, (steady_append steady).1⟩

theorem Faithful.extend (faithful : Faithful c exchanges) (some_bytes : 0 < r.res) :
    Faithful c (exchanges ++ [(op, r)]) := by
  refine faithful.imp (fun prompt x member sends => ?_) fun ⟨slot, steady⟩ => ⟨slot, fun x member sends => ?_⟩
  · rcases List.mem_append.mp member with before | last
    · exact prompt x before sends
    · cases List.mem_singleton.mp last
      exact some_bytes
  · rcases List.mem_append.mp member with before | last
    · exact steady x before sends
    · cases List.mem_singleton.mp last
      exact some_bytes.ne'

theorem received_append (exchanges : List (Op × Answer)) (op : Op) (r : Answer) :
    received (exchanges ++ [(op, r)]) = received exchanges ++ op.received r := by
  simp [received]

theorem confirmed_append (exchanges : List (Op × Answer)) (op : Op) (r : Answer) :
    confirmed (exchanges ++ [(op, r)]) = confirmed exchanges ++ op.confirmed r := by
  simp [confirmed]

theorem slotData_fill (exchanges : List (Op × Answer)) (fills : op.fillsSlot = true) (r : Answer) :
    slotData (exchanges ++ [(op, r)]) = r.data := by
  simp [slotData, fills]

theorem slotData_keep (exchanges : List (Op × Answer)) (other : op.fillsSlot = false) (r : Answer) :
    slotData (exchanges ++ [(op, r)]) = slotData exchanges := by
  simp [slotData, other]

theorem Echoed.start : Echoed c [] [] [] := ⟨[], [], rfl, rfl, .refl _, fun _ => rfl⟩

theorem Echoed.receive (echoed : Echoed c exchanges [] []) (other : op.sends = false) :
    Echoed c (exchanges ++ [(op, r)]) (op.received r) [] := by
  obtain ⟨before, echo, into, out, sublist, same⟩ := echoed
  refine ⟨before, echo, ?_, ?_, sublist, fun faithful => same faithful.before⟩
  · rw [received_append, into, List.append_nil]
  · rw [confirmed_append, out, Op.confirmed, other]
    simp

theorem Echoed.send (echoed : Echoed c exchanges data sent) (sends : op.sends = true) (nothing : op.received r = []) :
    Echoed c (exchanges ++ [(op, r)]) data (sent ++ op.bytes.take r.res.toNat) := by
  obtain ⟨before, echo, into, out, sublist, same⟩ := echoed
  refine ⟨before, echo, ?_, ?_, sublist, fun faithful => same faithful.before⟩
  · rw [received_append, into, nothing, List.append_nil]
  · rw [confirmed_append, out, Op.confirmed, if_pos sends, List.append_assoc]

/-- A part of the data has been sent, and all of it where nothing has failed. -/
theorem Echoed.settle (echoed : Echoed c exchanges data sent) (part : sent <+: data)
    (whole : Faithful c exchanges → sent = data) : Echoed c exchanges [] [] := by
  obtain ⟨before, echo, into, out, sublist, same⟩ := echoed
  refine ⟨before ++ data, echo ++ sent, ?_, ?_, sublist.append part.sublist, fun faithful => ?_⟩
  · rw [into, List.append_nil]
  · rw [out, List.append_nil]
  · rw [same faithful, whole faithful]

theorem Echoed.finish (echoed : Echoed c exchanges data sent) (part : sent <+: data)
    (whole : Prompt exchanges → sent = data) : Finished c exchanges := by
  obtain ⟨before, echo, into, out, sublist, same⟩ := echoed
  refine ⟨?_, fun faithful => ?_, fun prompt => ?_⟩
  · rw [into, out]
    exact sublist.append part.sublist
  · rw [into, out, same faithful]
    exact (List.prefix_append_right_inj before).mpr part
  · rw [into, out, same (Or.inl prompt), whole prompt]

/-- A buffer with nothing in it, as the handler makes it or as it is after the first reception. -/
structure Clean (buf : Buffer) : Prop where
  holds : buf.Holds []
  reader : buf.readerIndex = Buffer.kCheapPrepend
  size : buf.buffer.length = 1032 ∨ buf.buffer.length = 4104

/-- The handler waits for a task of its connection. -/
abbrev waiting (c : Conn) (next : Except Unit Value → State .void) : Callers Unit Value Running .value :=
  .caller (fun r => (c, next r)) .nobody

abbrev leaving (c : Conn) : Callers Unit Value Running .void := .caller (fun r => (c, .shut r)) .nobody

/-- How the handler goes on after a send of the kind. -/
inductive Onward (c : Conn) : Bool → (Except Unit Value → State .void) → Prop
  | plain {buf : Buffer} : c.hasFixedSlot = false → Clean buf → Onward c false (.sent buf)
  | fixed : c.hasFixedSlot = true → Onward c true .sentFixed

/-- A call of a send is under way or has returned: its results are those of the last exchanges. -/
structure Sending (c : Conn) (exchanges : List (Op × Answer)) (data : List UInt8) (t : Transfer) : Prop where
  echoed : Echoed c exchanges data (wire data t.transcript)
  sound : Sound data t
  small : data.length < 2 ^ 32
  prompt : Prompt exchanges → ∀ n ∈ t.transcript.map Prod.snd, 0 < n
  steady : Steady exchanges → ∀ n ∈ t.transcript.map Prod.snd, n ≠ 0

/-- Where a handler is in its program, with what it has received and sent. -/
inductive Stage (c : Conn) (exchanges : List (Op × Answer)) : Handler Unit Value Op Running → Prop
  | handler : exchanges = [] → Stage c exchanges (.begin (c, .handler))
  | recv {buf : Buffer} : c.hasFixedSlot = false → Clean buf → Echoed c exchanges [] [] →
      Stage c exchanges (.exec (c, State.recv buf) (waiting c .received))
  | receiving {buf : Buffer} : c.hasFixedSlot = false → Clean buf → buf.writableBytes = 4096 →
      Echoed c exchanges [] [] →
      Stage c exchanges (.blocked { awaiter := .recvIntoBuffer c.fd buf.writableBytes }
        (fun r => (c, State.recvResumed buf r)) (waiting c .received))
  | recvResumed {buf : Buffer} {r : Answer} : c.hasFixedSlot = false → Clean buf → buf.writableBytes = 4096 →
      r.res ≤ 4096 → r.data.length = r.res.toNat → Echoed c exchanges r.data [] →
      Stage c exchanges (.exec (c, State.recvResumed buf r) (waiting c .received))
  | received {n : Int} {buf : Buffer} {data : List UInt8} : c.hasFixedSlot = false → buf.Holds data →
      buf.buffer.length = 4104 → data.length = n.toNat → n ≤ 4096 → Echoed c exchanges data [] →
      Stage c exchanges (.exec (c, State.received (.ok (.received n buf))) .nobody)
  | sending {fixed : Bool} {data : List UInt8} {place : Place} {transcript : List (Request × Int)}
      {next : Except Unit Value → State .void} : Onward c fixed next → (fixed = true → data = slotData exchanges) →
      Sending c exchanges data { place := place, transcript := transcript } →
      Stage c exchanges (.exec (c, State.sending fixed data place) (waiting c next))
  | transmitting {fixed : Bool} {data : List UInt8} {l : TcpConnection.SendLoop} {transcript : List (Request × Int)}
      {next : Except Unit Value → State .void} : Onward c fixed next → (fixed = true → data = slotData exchanges) →
      Sending c exchanges data { place := .awaiting l, transcript := transcript } →
      Stage c exchanges (.blocked (c.sendOp fixed data l)
        (fun r => (c, State.sending fixed data (if fixed then sendFixed.resume l r.res else send.resume l r.res)))
        (waiting c next))
  | sent {buf : Buffer} {n : Int} : c.hasFixedSlot = false → Clean buf → Echoed c exchanges [] [] →
      Stage c exchanges (.exec (c, State.sent buf (.ok (.sent n))) .nobody)
  | recvFixed : c.hasFixedSlot = true → Echoed c exchanges [] [] →
      Stage c exchanges (.exec (c, State.recvFixed) (waiting c .viewed))
  | receivingFixed : c.hasFixedSlot = true → Echoed c exchanges [] [] →
      Stage c exchanges (.blocked { awaiter := .recvFixed c.fd (c.slotSize % 2 ^ 32) c.bufIndex, address := c.slot }
        (fun r => (c, State.recvFixedResumed r)) (waiting c .viewed))
  | recvFixedResumed {r : Answer} : c.hasFixedSlot = true → r.res < 2 ^ 32 → r.data.length = r.res.toNat →
      Echoed c exchanges r.data [] → r.data = slotData exchanges →
      Stage c exchanges (.exec (c, State.recvFixedResumed r) (waiting c .viewed))
  | viewed {n : Int} {data : List UInt8} : c.hasFixedSlot = true → n < 2 ^ 32 → data.length = n.toNat →
      Echoed c exchanges data [] → data = slotData exchanges →
      Stage c exchanges (.exec (c, State.viewed (.ok (.view n data))) .nobody)
  | sentFixed {n : Int} : c.hasFixedSlot = true → (n < 0 → Finished c exchanges) →
      (0 ≤ n → Echoed c exchanges [] []) → Stage c exchanges (.exec (c, State.sentFixed (.ok (.sent n))) .nobody)
  | shutdown : Finished c exchanges → Stage c exchanges (.exec (c, State.shutdown) (leaving c))
  | shuttingDown : Finished c exchanges → Stage c exchanges (.blocked { awaiter := .shutdown c.fd shutRdwr }
      (fun _ => (c, State.shutdownResumed)) (leaving c))
  | shutdownResumed : Finished c exchanges → Stage c exchanges (.exec (c, State.shutdownResumed) (leaving c))
  | shut : Finished c exchanges → Stage c exchanges (.exec (c, State.shut (.ok ())) .nobody)
  | ended : Finished c exchanges → Stage c exchanges (.ended (.ok ()))

theorem Clean.make : Clean (Buffer.make Buffer.kInitialSize) := by
  refine ⟨Buffer.make_holds (by decide), rfl, Or.inl ?_⟩
  rw [Buffer.make, List.length_replicate]
  rfl

theorem Clean.writable (clean : Clean buf) : buf.writableBytes = buf.buffer.length - 8 := by
  have writer := clean.holds.writer
  rw [clean.reader, List.length_nil] at writer
  rw [clean.holds.writableBytes, writer]
  rfl

theorem ensureWritableBytes_reader {buf' : Buffer} {len : Nat} (done : buf.ensureWritableBytes len = some buf') :
    buf'.readerIndex = buf.readerIndex ∨ buf'.readerIndex = Buffer.kCheapPrepend := by
  unfold Buffer.ensureWritableBytes Buffer.makeSpace Buffer.resize at done
  split at done
  · split at done
    · obtain ⟨_, same⟩ := Option.ite_none_right_eq_some.mp done
      cases Option.some.inj same
      exact Or.inl rfl
    · obtain ⟨bytes, _, moved⟩ := Option.bind_eq_some_iff.mp done
      obtain ⟨next, _, same⟩ := Option.bind_eq_some_iff.mp moved
      cases Option.some.inj same
      exact Or.inr rfl
  · cases Option.some.inj done
    exact Or.inl rfl

/-- Every reception asks for 4096 bytes: the buffer is enlarged once. -/
theorem Clean.ensure (clean : Clean buf) :
    ∃ buf', buf.ensureWritableBytes RecvIntoBufferAwaiter.kMinRecvSize = some buf' ∧ Clean buf' ∧
      buf'.writableBytes = 4096 := by
  have writer := clean.holds.writer
  have size := clean.size
  have small := clean.holds.small
  rw [clean.reader, List.length_nil] at writer
  have asked : RecvIntoBufferAwaiter.kMinRecvSize = 4096 := rfl
  have reserve : Buffer.kCheapPrepend = 8 := rfl
  have width : buf.writerIndex + RecvIntoBufferAwaiter.kMinRecvSize < 2 ^ 64 := by omega
  rcases clean.holds.ensureWritableBytes_cases width with ⟨-, -, refused⟩ | ⟨buf', done, holds, room, grown⟩
  · rw [SizeT.add_of_lt width, Buffer.resize, if_pos (by omega)] at refused
    cases refused
  have reader : buf'.readerIndex = Buffer.kCheapPrepend :=
    (ensureWritableBytes_reader done).elim (fun same => same.trans clean.reader) id
  have writer' := holds.writer
  rw [reader, List.length_nil] at writer'
  have length : buf'.buffer.length = 4104 := by
    rw [holds.writableBytes] at room
    omega
  have writable : buf'.writableBytes = 4096 := by
    rw [holds.writableBytes, writer', length]
    rfl
  exact ⟨buf', done, ⟨holds, reader, Or.inr length⟩, writable⟩

/-- What was received is in the buffer. -/
theorem Clean.credit (clean : Clean buf) (room : buf.writableBytes = 4096) (within : r.res ≤ 4096)
    (length : r.data.length = r.res.toNat) :
    ∃ buf', EchoServer.credit buf r = some buf' ∧ buf'.Holds r.data ∧ buf'.buffer.length = 4104 := by
  have writable := clean.writable
  have fits : r.data.length ≤ buf.writableBytes := by omega
  obtain ⟨written, done, index, empty, same, full⟩ := clean.holds.write fits
  have size : written.buffer.length = 4104 := by omega
  by_cases some_bytes : 0 < r.res
  · have free : r.res.toNat ≤ written.writableBytes := by
      rw [empty.writableBytes, same, index, ← clean.holds.writableBytes]
      omega
    rw [length] at full
    refine ⟨_, ?_, full, size⟩
    rw [EchoServer.credit, done, Option.bind_eq_bind, Option.bind_some, if_pos some_bytes, Buffer.hasWritten, if_pos free]
  · have nothing : r.data = [] := List.eq_nil_of_length_eq_zero (by omega)
    refine ⟨written, by simp [EchoServer.credit, done, some_bytes], nothing ▸ empty, size⟩

theorem Sending.start (echoed : Echoed c exchanges data []) (small : data.length < 2 ^ 32) :
    Sending c exchanges data { place := send.call data.length } :=
  ⟨echoed, TcpConnection.call_sound, small, fun _ _ member => absurd member List.not_mem_nil,
    fun _ _ member => absurd member List.not_mem_nil⟩

theorem sendOp_sends (c : Conn) (fixed : Bool) (data : List UInt8) (l : TcpConnection.SendLoop) :
    (c.sendOp fixed data l).sends = true ∧ ((c.sendOp fixed data l).received r = []) ∧
      (c.sendOp fixed data l).bytes = (data.drop (send.request l).start).take (send.request l).len ∧
      ((c.sendOp fixed data l).Answers r ↔ r.res ≤ (c.sendOp fixed data l).bytes.length) := by
  cases fixed
  · exact ⟨rfl, rfl, rfl, Iff.rfl⟩
  · exact ⟨rfl, rfl, by rw [← TcpConnection.sendFixed_eq_send]; rfl, Iff.rfl⟩

/-- A send gets an answer. -/
theorem Sending.resume {l : TcpConnection.SendLoop}
    (sending : Sending c exchanges data { place := .awaiting l, transcript := transcript })
    (answers : (c.sendOp fixed data l).Answers r) :
    Sending c (exchanges ++ [(c.sendOp fixed data l, r)]) data
      { place := send.resume l r.res, transcript := transcript ++ [(send.request l, r.res)] } := by
  obtain ⟨sends, nothing, bytes, bound⟩ := sendOp_sends (r := r) c fixed data l
  have taken : r.res ≤ (send.request l).len := by
    have within := bound.mp answers
    rw [bytes, List.length_take] at within
    omega
  have echoed := sending.echoed.send (r := r) sends nothing
  have wired : wire data transcript ++ (c.sendOp fixed data l).bytes.take r.res.toNat =
      wire data (transcript ++ [(send.request l, r.res)]) := by
    rw [TcpConnection.wire_append, TcpConnection.wire_single, bytes, List.take_take, min_eq_left (by omega)]
  rw [wired] at echoed
  refine ⟨echoed, sending.sound.resume (by have := sending.small; omega) rfl taken, sending.small, fun prompt n member => ?_,
    fun steady n member => ?_⟩
  · obtain ⟨before, last⟩ := prompt_append prompt
    rw [List.map_append, List.mem_append] at member
    rcases member with earlier | new
    · exact sending.prompt before n earlier
    · exact List.mem_singleton.mp new ▸ last sends
  · obtain ⟨before, last⟩ := steady_append steady
    rw [List.map_append, List.mem_append] at member
    rcases member with earlier | new
    · exact sending.steady before n earlier
    · exact List.mem_singleton.mp new ▸ last sends

/-- A send that returns has sent everything, or the last result was no count. -/
theorem Sending.returned (sending : Sending c exchanges data { place := .returned n, transcript := transcript }) :
    wire data transcript <+: data ∧ (Prompt exchanges → wire data transcript = data) ∧
      (Steady exchanges → 0 ≤ n → wire data transcript = data) := by
  have exact := sending.sound.exact sending.small rfl
  refine ⟨exact.begins, fun prompt => ?_, fun steady nonneg => ?_⟩
  · have positive := sending.prompt prompt
    rcases exact.result n rfl with ⟨all, _⟩ | ⟨before, last, negative, _⟩ | ⟨before, last, _⟩
    · exact all
    · exact absurd (positive n (last ▸ by simp)) (by omega)
    · exact absurd (positive 0 (last ▸ by simp)) (by omega)
  · have nonzero := sending.steady steady
    rcases exact.result n rfl with ⟨all, _⟩ | ⟨before, last, negative, _⟩ | ⟨before, last, _⟩
    · exact all
    · omega
    · exact absurd rfl (nonzero 0 (last ▸ by simp))

end CoroNet.EchoServer
