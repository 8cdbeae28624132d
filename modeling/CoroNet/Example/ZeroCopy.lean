import CoroNet.EventLoop.Effects
import CoroNet.Example.EchoWorker
import CoroNet.General.ByteMemory
import CoroNet.Memory.RegisteredBufferPool

namespace CoroNet.EchoServer

open Coroutine (Kind)
open EventLoop
open TcpConnection (sendFixed)

variable {c : Conn} {exchanges : List (Op × Answer)} {op : Op} {r : Answer} {h h' : Handler Unit Value Op Running}
  {e : Event Op Running} {events : List (Event Op Running)}

def Op.drainsSlot (op : Op) : Bool :=
  match op.awaiter with
  | .sendFixed .. => true
  | _ => false

/-- What the operations of a connection have to do with its slot. -/
structure OfSlot (c : Conn) (exchanges : List (Op × Answer)) (op : Op) : Prop where
  fills : ∀ fd len idx, op.awaiter = .recvFixed fd len idx →
    c.hasFixedSlot = true ∧ op.address = c.slot ∧ len ≤ c.slotSize
  drains : ∀ fd len idx, op.awaiter = .sendFixed fd len idx → c.hasFixedSlot = true ∧ op.bytes.length = len ∧
    ∃ offset, op.address = c.slot + offset ∧ offset + len ≤ (slotData exchanges).length ∧
      op.bytes = ((slotData exchanges).drop offset).take len
  sends : c.hasFixedSlot = true → op.sends = true → op.drainsSlot = true

/-- A send out of a slot names bytes that have just been received there. -/
theorem Stage.of_slot (stage : Stage c exchanges h) (asks : h.asks = some op) : OfSlot c exchanges op := by
  cases stage with
  | receiving plain =>
    cases asks
    exact ⟨nofun, nofun, fun _ => nofun⟩
  | receivingFixed slot =>
    cases asks
    exact ⟨fun _ _ _ same => by cases same; exact ⟨slot, rfl, Nat.mod_le _ _⟩, nofun, fun _ => nofun⟩
  | @transmitting fixed data l _ _ onward slot_data sending =>
    cases asks
    cases onward with
    | plain plain =>
      exact ⟨nofun, nofun, fun slot => absurd (plain.symm.trans slot) Bool.false_ne_true⟩
    | fixed slot =>
      refine ⟨nofun, fun fd len idx same => ?_, fun _ _ => rfl⟩
      cases same
      obtain ⟨more, running⟩ := sending.sound.running l rfl
      have split := running.split
      have small := sending.small
      have whole : (sendFixed.request l).len = l.remaining := by
        show l.remaining % 2 ^ 32 % 2 ^ 32 = l.remaining
        omega
      have names : (c.sendOp true data l).bytes = (data.drop l.p).take l.remaining := by
        simp only [Conn.sendOp, if_true, whole]
        rfl
      rw [← slot_data rfl, if_pos rfl, whole]
      refine ⟨slot, ?_, l.p, rfl, by omega, names⟩
      rw [names, List.length_take, List.length_drop]
      omega
  | shuttingDown =>
    cases asks
    exact ⟨nofun, nofun, fun _ => nofun⟩
  | handler | recv | recvResumed | received | sending | sent | recvFixed | recvFixedResumed | viewed | sentFixed
  | shutdown | shutdownResumed | shut | ended => cases asks

theorem OfSlot.within (of_slot : OfSlot c exchanges op) (fills : op.fillsSlot = true) (answers : op.Answers r) :
    r.data.length ≤ c.slotSize := by
  unfold Op.fillsSlot at fills
  split at fills
  next fd len idx same =>
    obtain ⟨_, _, size⟩ := of_slot.fills fd len idx same
    simp only [Op.Answers, same] at answers
    omega
  next => cases fills

theorem OfSlot.filled (of_slot : OfSlot c exchanges op) (fills : op.fillsSlot = true) :
    c.hasFixedSlot = true ∧ op.address = c.slot := by
  unfold Op.fillsSlot at fills
  split at fills
  next fd len idx same => exact ⟨(of_slot.fills fd len idx same).1, (of_slot.fills fd len idx same).2.1⟩
  next => cases fills

theorem Op.drains_sends (drains : op.drainsSlot = true) : op.sends = true := by
  unfold Op.drainsSlot at drains
  split at drains
  next same => rw [Op.sends, same]
  next => cases drains

theorem Op.drains_answers (drains : op.drainsSlot = true) :
    (op.Answers r ↔ r.res ≤ op.bytes.length) ∧ op.received r = [] := by
  unfold Op.drainsSlot at drains
  split at drains
  next same => exact ⟨by rw [Op.Answers, same], by rw [Op.received, same]⟩
  next => cases drains

theorem OfSlot.drained (of_slot : OfSlot c exchanges op) (drains : op.drainsSlot = true) : c.hasFixedSlot = true := by
  unfold Op.drainsSlot at drains
  split at drains
  next fd len idx same => exact (of_slot.drains fd len idx same).1
  next => cases drains

/-- What is received fits into the slot. -/
theorem slotData_fits (trace : Handler.Trace code (.begin (c, .handler)) events h) (kernel : ∀ e ∈ events, Allowed e) :
    (slotData (EventLoop.exchanges events)).length ≤ c.slotSize := by
  suffices kept : (∀ e ∈ events, Allowed e) → Stage c (EventLoop.exchanges events) h ∧
      (slotData (EventLoop.exchanges events)).length ≤ c.slotSize from (kept kernel).2
  refine trace.invariant (P := fun events h => (∀ e ∈ events, Allowed e) → Stage c (EventLoop.exchanges events) h ∧
    (slotData (EventLoop.exchanges events)).length ≤ c.slotSize) (fun _ => ⟨.handler rfl, Nat.zero_le _⟩)
    (fun held moved kernel => ?_) fun {k before op next callers r} held kernel => ?_
  · obtain ⟨stage, fits⟩ := held fun e member => kernel e (List.mem_append_left _ member)
    rw [Handler.exchanges_move moved]
    exact ⟨stage.move moved, fits⟩
  · obtain ⟨stage, fits⟩ := held fun e member => kernel e (List.mem_append_left _ member)
    have answers : op.Answers r := kernel _ (List.mem_append_right _ (List.mem_singleton_self _))
    have appended : EventLoop.exchanges (before ++ [.answered op r]) = EventLoop.exchanges before ++ [(op, r)] := by
      simp [EventLoop.exchanges]
    rw [appended]
    refine ⟨stage.answer answers, ?_⟩
    cases fills : op.fillsSlot with
    | true =>
      rw [slotData_fill _ fills]
      exact (stage.of_slot rfl).within fills answers
    | false => rwa [slotData_keep _ fills]

theorem no_bytes : 0 < 2 ^ 32 := Nat.two_pow_pos 32

/-- What the constructor of a connection makes when there is no slot for it. -/
def Conn.withoutSlot (fd : Int) : Conn := ⟨fd, -1, 0, 0, no_bytes⟩

def Conn.withSlot (fd : Int) (pool : RegisteredBufferPool) (idx : Int) : Conn :=
  ⟨fd, idx, pool.slotPtr idx, pool.slotSize.toNat, pool.slotSize.toNat_lt⟩

/-- The part of a connection that the pool has to do with. -/
def Conn.part (c : Conn) : TcpConnection := ⟨c.bufIndex, c.slot, c.slotSize⟩

namespace ZeroCopy

/-- A worker of the echo server with the memory its pool is in: `taken` is what
the kernel has copied out of it so far for the operation of an awaiter, `wire`
all that it has copied, with the handler it was for. -/
structure World where
  loop : EventLoop.World Unit Value Op Running := {}
  bufPool : Option RegisteredBufferPool
  memory : ByteMemory := fun _ => 0
  taken : Nat → List UInt8 := fun _ => []
  wire : List (Nat × List UInt8) := []

/-- The loop goes on; a connection is accepted; or the kernel puts bytes where a
reception into a slot may put some, takes bytes for a send out of a slot, or
completes an operation. -/
inductive Act
  | execute
  | turn
  | connect (fd : Int)
  | deposit (a offset : Nat) (bytes : List UInt8)
  | transmit (a n : Nat)
  | complete (a : Nat) (r : Answer)

namespace World

/-- The connection of handler `t`. -/
def conn (w : World) (t : Nat) : Conn :=
  match w.loop.started[t]? with
  | some (c, _) => c
  | none => .withoutSlot (-1)

/-- The pool, and the connections of the handlers that have not returned. -/
def owners (w : World) : SlotOwners.World where
  bufPool := w.bufPool
  conns := w.loop.unfinished.map fun t => (w.conn t).part

/-- The constructor of `TcpConnection`. -/
def construct (w : World) (fd : Int) : Conn × Option RegisteredBufferPool :=
  match w.bufPool with
  | none => (.withoutSlot fd, none)
  | some pool =>
    let (idx, rest) := pool.acquire
    if 0 ≤ idx then (.withSlot fd rest idx, some rest) else (.withoutSlot fd, some rest)

/-- The destructor, of a connection that has gone with the frame of its handler. -/
def release (bufPool : Option RegisteredBufferPool) (c : Conn) : Option RegisteredBufferPool :=
  if c.hasFixedSlot then bufPool.map fun pool => pool.release c.bufIndex else bufPool

/-- The loop has gone on to `loop`: some connections may be gone. -/
def goOn (w : World) (loop : EventLoop.World Unit Value Op Running) : World :=
  let gone := w.loop.unfinished.filter fun t => (loop.shims t).isNone
  { w with loop := loop, bufPool := (gone.map w.conn).foldl release w.bufPool }

/-- The operation in flight of awaiter `a`, with the handler it belongs to. -/
def pending (w : World) (a : Nat) : Option (Nat × Op) :=
  if a ∈ w.loop.inflight then do
    let awaiter ← w.loop.awaiters a
    let t ← w.loop.ownerOf (some awaiter.handle)
    return (t, awaiter.op)
  else none

def deposit (w : World) (op : Op) (offset : Nat) (bytes : List UInt8) : Option World :=
  match op.awaiter with
  | .recvFixed _ len _ =>
    if offset + bytes.length ≤ len then some { w with memory := w.memory.write (op.address + offset) bytes } else none
  | _ => none

def transmit (w : World) (t a : Nat) (op : Op) (n : Nat) : Option World :=
  match op.awaiter with
  | .sendFixed _ len _ =>
    if (w.taken a).length + n ≤ len then
      let bytes := w.memory.read (op.address + (w.taken a).length) n
      some { w with taken := Function.update w.taken a (w.taken a ++ bytes), wire := w.wire ++ [(t, bytes)] }
    else none
  | _ => none

/-- The answer says what the kernel has put into the slot, or how much it has
taken out of it. -/
def honest (w : World) (a : Nat) (op : Op) (r : Answer) : Bool :=
  match op.awaiter with
  | .recvFixed .. => w.memory.read op.address r.data.length = r.data
  | .sendFixed .. => (w.taken a).length = r.res.toNat
  | _ => true

end World

def step (w : World) : Act → Option World
  | .execute => (EventLoop.step code w.loop .execute).map w.goOn
  | .turn => (EventLoop.step code w.loop .turn).map w.goOn
  | .connect fd =>
    (EventLoop.step code w.loop (.spawn ((w.construct fd).1, .handler))).map fun loop =>
      { w with loop := loop, bufPool := (w.construct fd).2 }
  | .deposit a offset bytes => (w.pending a).bind fun x => w.deposit x.2 offset bytes
  | .transmit a n => (w.pending a).bind fun x => w.transmit x.1 a x.2 n
  | .complete a r => (w.pending a).bind fun x =>
    if x.2.Answers r ∧ w.honest a x.2 r then (EventLoop.step code w.loop (.complete a r)).map w.goOn else none

def start (pool : RegisteredBufferPool) : World := { bufPool := if pool.enabled then some pool else none }

/-- What the kernel has put on the wire for handler `t`. -/
def World.sent (w : World) (t : Nat) : List UInt8 := (w.wire.filter fun x => x.1 = t).flatMap Prod.snd

end ZeroCopy

end CoroNet.EchoServer
