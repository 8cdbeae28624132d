import CoroNet.General.Runs
import CoroNet.SizeT
import Mathlib.Algebra.Ring.Int.Defs
import Mathlib.Algebra.Ring.Nat
import Mathlib.Order.Lattice

namespace CoroNet.TcpConnection

open Transition

/-- The locals of the two loops; `p` counts from the first byte. -/
structure SendLoop where
  remaining : Nat
  p : Nat
  total : Int

/-- What an SQE asks for: `len` bytes from `start` on. -/
structure Request where
  start : Nat
  len : Nat

/-- Where a call is: suspended in a request, or past its `co_return`. -/
inductive Place
  | awaiting (l : SendLoop)
  | returned (n : Int)

/-- The `len` field of an SQE has 32 bits. -/
def prepSend (buf len : Nat) : Request := { start := buf, len := len % 2 ^ 32 }

def prepWriteFixed (buf nbytes : Nat) : Request := { start := buf, len := nbytes % 2 ^ 32 }

/-- A loop that writes all bytes: how it begins, what it asks for and what it
does with the result. -/
structure Sender where
  call : Nat → Place
  request : SendLoop → Request
  resume : SendLoop → Int → Place

/-- `while (remaining > 0)`, and the `co_return` behind it. -/
def whileRemaining (l : SendLoop) : Place :=
  if 0 < l.remaining then .awaiting l else .returned l.total

/-- A signed count as the `size_t` it is subtracted as. -/
def toSizeT (n : Int) : Nat := (n % 2 ^ 64).toNat

def send : Sender where
  call size := whileRemaining { remaining := size, p := 0, total := 0 }
  request l := prepSend l.p l.remaining
  resume l n :=
    if n < 0 then .returned n
    else if n = 0 then .returned l.total
    else whileRemaining { total := l.total + n, p := l.p + n.toNat, remaining := SizeT.sub l.remaining (toSizeT n) }

/-- `static_cast<unsigned>(remaining)` comes before the awaiter here. -/
def sendFixed : Sender where
  call len := whileRemaining { remaining := len, p := 0, total := 0 }
  request l := prepWriteFixed l.p (l.remaining % 2 ^ 32)
  resume l n :=
    if n < 0 then .returned n
    else if n = 0 then .returned l.total
    else whileRemaining { total := l.total + n, p := l.p + n.toNat, remaining := SizeT.sub l.remaining (toSizeT n) }

/-- A call under way, with the requests completed so far and their results. -/
structure Transfer where
  place : Place
  transcript : List (Request × Int) := []

namespace Sender

def start (s : Sender) (size : Nat) : Transfer := { place := s.call size }

/-- The pending request completes with the result `n`. -/
def step (s : Sender) (t : Transfer) (n : Int) : Option Transfer :=
  match t.place with
  | .awaiting l => some { place := s.resume l n, transcript := t.transcript ++ [(s.request l, n)] }
  | .returned _ => none

end Sender

theorem sendFixed_eq_send : sendFixed = send := by
  simp only [sendFixed, send, prepWriteFixed, prepSend, Nat.mod_mod]

/-- No result exceeds the number of bytes requested. -/
def Confirms (t : Transfer) (n : Int) : Prop :=
  ∀ l, t.place = .awaiting l → n ≤ (send.request l).len

/-- A request that is not empty has a positive result, an empty one has 0. -/
def Answers (t : Transfer) (n : Int) : Prop :=
  ∀ l, t.place = .awaiting l → n ≤ (send.request l).len ∧ (0 < (send.request l).len → 0 < n) ∧
    ((send.request l).len = 0 → n = 0)

/-- The bytes the kernel confirmed, in the order of the confirmations. -/
def wire (data : List UInt8) (transcript : List (Request × Int)) : List UInt8 :=
  transcript.flatMap fun e => (data.drop e.1.start).take e.2.toNat

end CoroNet.TcpConnection
