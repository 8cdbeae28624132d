import Mathlib.Algebra.Ring.Nat
import Mathlib.Data.List.Basic

namespace CoroNet.Scheduler

/-- What the preparation calls of liburing write into an SQE. Pointers are
left out; a timeout is given by its seconds and nanoseconds. -/
inductive Opcode
  | nop
  | read (len : Nat)
  | recv (fd : Int) (len : Nat)
  | readFixed (fd : Int) (len : Nat) (bufIndex : Int)
  | send (fd : Int) (len : Nat) (flags : Nat)
  | writeFixed (fd : Int) (len : Nat) (bufIndex : Int)
  | accept (fd : Int)
  | timeout (tvSec tvNsec : Int)
  | shutdown (fd : Int) (how : Nat)
deriving DecidableEq

/-- The descriptor in an SQE; the watchers' own is left out. -/
def Opcode.fd : Opcode → Option Int
  | .recv fd _ | .readFixed fd _ _ | .send fd _ _ | .writeFixed fd _ _ | .accept fd | .shutdown fd _ => some fd
  | .nop | .read _ | .timeout .. => none

/-- The `user_data` of an SQE: null, the `EventfdWatcher`, the
`TimerfdWatcher`, or the address of an awaiter. An awaiter is named by the
suspension that created it. -/
inductive UserData
  | null
  | eventfd
  | timerfd
  | awaiter (a : Nat)
deriving DecidableEq

structure Sqe where
  opcode : Opcode
  userData : UserData
deriving DecidableEq

structure Cqe where
  userData : UserData
  res : Int
  flags : Nat

/-- An `io_uring`: the SQEs that are filled and not submitted, those submitted
and not yet consumed (under SQPOLL the kernel takes them in its own time), the
operations in flight, and the completions the head has not passed. -/
structure Ring where
  entries : Nat
  sqpoll : Bool
  queued : List Sqe := []
  unconsumed : List Sqe := []
  inflight : List Sqe := []
  cq : List Cqe := []

namespace Ring

/-- The entries of the submission queue in use. -/
def pending (r : Ring) : Nat := r.queued.length + r.unconsumed.length

/-- A caller of `get_sqe` has written into the SQE. -/
def push (r : Ring) (sqe : Sqe) : Ring := { r with queued := r.queued ++ [sqe] }

/-- `get_sqe` and what its caller writes into the SQE; nothing when it returns null. -/
def getSqe (r : Ring) (sqe : Sqe) : Option Ring :=
  if r.pending < r.entries then some (r.push sqe) else none

def submit (r : Ring) : Ring :=
  if r.sqpoll then { r with queued := [], unconsumed := r.unconsumed ++ r.queued }
  else { r with queued := [], inflight := r.inflight ++ r.queued }

/-- The polling thread takes the oldest SQE. -/
def consume (r : Ring) : Option Ring :=
  match r.unconsumed with
  | [] => none
  | sqe :: rest => some { r with unconsumed := rest, inflight := r.inflight ++ [sqe] }

/-- The operation `k` completes. -/
def complete (r : Ring) (k : Nat) (cqe : Cqe) : Ring :=
  { r with inflight := r.inflight.eraseIdx k, cq := r.cq ++ [cqe] }

def peekBatchCqe (r : Ring) (count : Nat) : Nat := min count r.cq.length

def cqAdvance (r : Ring) (n : Nat) : Ring := { r with cq := r.cq.drop n }

end Ring

end CoroNet.Scheduler
