import CoroNet.Connection.Send
import CoroNet.EventLoop.Handler
import CoroNet.Memory.Buffer
import CoroNet.Scheduler.Loop

namespace CoroNet.EchoServer

open Coroutine (Kind)
open EventLoop
open Scheduler (IoAwaiter shutRdwr)
open TcpConnection (Place send sendFixed)

/-- A connection: its descriptor, and the index, the address and the size of its
slot. A connection without a slot has the index -1; sizes of slots are `unsigned`. -/
structure Conn where
  fd : Int
  bufIndex : Int
  slot : Nat
  slotSize : Nat
  small : slotSize < 2 ^ 32

def Conn.hasFixedSlot (c : Conn) : Bool := 0 ≤ c.bufIndex

/-- An awaiter, with the bytes that the pointer and the length of a send name,
and the pointer where it is one into a slot. -/
structure Op where
  awaiter : IoAwaiter
  bytes : List UInt8 := []
  address : Nat := 0

/-- What the tasks of a connection return: the count of `recv`, with the buffer
it has a reference to; the `RecvView` of `recv_fixed`; the count of a send. -/
inductive Value
  | received (n : Int) (buf : Buffer)
  | view (n : Int) (data : List UInt8)
  | sent (n : Int)

/-- Where the coroutines are: the tasks of the connection before and after
their operation, and the handler before its loop and after each `co_await`. -/
inductive State : Kind → Type
  | recv (buf : Buffer) : State .value
  | recvResumed (buf : Buffer) (r : Answer) : State .value
  | recvFixed : State .value
  | recvFixedResumed (r : Answer) : State .value
  | sending (fixed : Bool) (data : List UInt8) (place : Place) : State .value
  | shutdown : State .void
  | shutdownResumed : State .void
  | handler : State .void
  | received (r : Except Unit Value) : State .void
  | sent (buf : Buffer) (r : Except Unit Value) : State .void
  | viewed (r : Except Unit Value) : State .void
  | sentFixed (r : Except Unit Value) : State .void
  | shut (r : Except Unit Unit) : State .void

abbrev Running (k : Kind) := Conn × State k

/-- `hasWritten` in `on_complete`, of what the kernel has written. -/
def credit (buf : Buffer) (r : Answer) : Option Buffer := do
  let buf ← buf.write buf.writerIndex r.data
  if 0 < r.res then buf.hasWritten r.res.toNat else return buf

namespace Conn

/-- `co_await conn->recv(buf)` at the head of the loop. -/
def recvLoop (c : Conn) (buf : Buffer) : Act Unit Value Op Running .void :=
  .await (c, State.recv buf) fun r => (c, .received r)

/-- `co_await conn->recv_fixed()` at the head of the other loop. -/
def fixedLoop (c : Conn) : Act Unit Value Op Running .void := .await (c, State.recvFixed) fun r => (c, .viewed r)

/-- Behind the loops. -/
def leave (c : Conn) : Act Unit Value Op Running .void := .await (c, State.shutdown) fun r => (c, .shut r)

/-- The `send` of an awaiter in a loop that writes all bytes. -/
def sendOp (c : Conn) (fixed : Bool) (data : List UInt8) (l : TcpConnection.SendLoop) : Op :=
  let request := if fixed then sendFixed.request l else send.request l
  { awaiter := if fixed then .sendFixed c.fd request.len c.bufIndex else .send c.fd l.remaining
    bytes := (data.drop request.start).take request.len
    address := if fixed then c.slot + request.start else 0 }

end Conn

/-- The coroutine functions of the echo server. An exception, which none of
them throws, would leave each of them. -/
def code : Code Unit Value Op Running
  -- `TcpConnection::recv`
  | _, (c, .recv buf) =>
    match buf.ensureWritableBytes RecvIntoBufferAwaiter.kMinRecvSize with
    | none => .throw ()
    | some buf => .io { awaiter := .recvIntoBuffer c.fd buf.writableBytes } fun r => (c, .recvResumed buf r)
  | _, (_, .recvResumed buf r) =>
    match credit buf r with
    | none => .throw ()
    | some buf => .ret (.received r.res buf)
  -- `TcpConnection::recv_fixed`
  | _, (c, .recvFixed) =>
    .io { awaiter := .recvFixed c.fd (c.slotSize % 2 ^ 32) c.bufIndex, address := c.slot } fun r =>
      (c, .recvFixedResumed r)
  | _, (_, .recvFixedResumed r) => .ret (.view r.res r.data)
  -- `TcpConnection::send` and `send_fixed`
  | _, (c, .sending fixed data place) =>
    match place with
    | .awaiting l => .io (c.sendOp fixed data l) fun r =>
        (c, .sending fixed data (if fixed then sendFixed.resume l r.res else send.resume l r.res))
    | .returned n => .ret (.sent n)
  -- `TcpConnection::shutdown`
  | _, (c, .shutdown) => if c.fd < 0 then .ret () else .io { awaiter := .shutdown c.fd shutRdwr } fun _ => (c, .shutdownResumed)
  | _, (_, .shutdownResumed) => .ret ()
  -- the handler in `main`
  | _, (c, .handler) => if c.hasFixedSlot then c.fixedLoop else c.recvLoop (Buffer.make Buffer.kInitialSize)
  | _, (c, .received r) =>
    match r with
    | .ok (.received n buf) =>
      if n ≤ 0 then c.leave
      else match buf.retrieveAllAsString with
        | none => .throw ()
        | some (s, buf) => .await (c, State.sending false s (send.call s.length)) fun r => (c, .sent buf r)
    | _ => .throw ()
  | _, (c, .sent buf r) =>
    -- what `send` returns is not looked at
    match r with
    | .ok _ => c.recvLoop buf
    | .error () => .throw ()
  | _, (c, .viewed r) =>
    match r with
    | .ok (.view n data) =>
      if n ≤ 0 then c.leave
      else .await (c, State.sending true (data.take n.toNat) (sendFixed.call n.toNat)) fun r => (c, .sentFixed r)
    | _ => .throw ()
  | _, (c, .sentFixed r) =>
    match r with
    | .ok (.sent n) => if n < 0 then c.leave else c.fixedLoop
    | _ => .throw ()
  | _, (_, .shut r) =>
    match r with
    | .ok () => .ret ()
    | .error () => .throw ()

namespace Op

/-- What the kernel may answer: a reception at most as many bytes as there is
room for, a send at most as many as it was given. -/
def Answers (op : Op) (r : Answer) : Prop :=
  match op.awaiter with
  | .recvIntoBuffer _ len | .recvFixed _ len _ => r.res ≤ len ∧ r.data.length = r.res.toNat
  | .send .. | .sendFixed .. => r.res ≤ op.bytes.length
  | _ => True

instance (op : Op) (r : Answer) : Decidable (op.Answers r) := by
  unfold Answers
  split <;> infer_instance

def sends (op : Op) : Bool :=
  match op.awaiter with
  | .send .. | .sendFixed .. => true
  | _ => false

def received (op : Op) (r : Answer) : List UInt8 :=
  match op.awaiter with
  | .recvIntoBuffer .. | .recvFixed .. => r.data
  | _ => []

def confirmed (op : Op) (r : Answer) : List UInt8 := if op.sends then op.bytes.take r.res.toNat else []

end Op

/-- The bytes a connection has received. -/
def received (exchanges : List (Op × Answer)) : List UInt8 := exchanges.flatMap fun x => x.1.received x.2

def Op.fillsSlot (op : Op) : Bool :=
  match op.awaiter with
  | .recvFixed .. => true
  | _ => false

/-- What the last reception into the slot has put there. -/
def slotData (exchanges : List (Op × Answer)) : List UInt8 :=
  ((exchanges.filter fun x => x.1.fillsSlot).getLast?.map fun x => x.2.data).getD []

/-- The bytes of it the kernel has confirmed as sent. -/
def confirmed (exchanges : List (Op × Answer)) : List UInt8 := exchanges.flatMap fun x => x.1.confirmed x.2

end CoroNet.EchoServer
