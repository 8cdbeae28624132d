import Mathlib.Data.List.Basic

namespace CoroNet.Coroutine

/-- A `Task<T>` with a value, or a `Task<void>`. -/
inductive Kind
  | value
  | void

/-- What a coroutine of the kind returns; the values of all `T` are in `V`. -/
def Kind.Ret (V : Type) : Kind → Type
  | .value => V
  | .void => Unit

/-- A coroutine body: it awaits one new child `Task` after another, and what it
does next depends on the value it gets or the exception that is thrown at
it, which it may catch; in the end it returns or lets an exception out. -/
inductive Body (E V : Type) : Kind → Type
  | ret {k : Kind} (r : k.Ret V) : Body E V k
  | throw {k : Kind} (e : E) : Body E V k
  | await {j k : Kind} (child : Body E V j) (next : Except E (j.Ret V) → Body E V k) : Body E V k

/-- The parties that a handle can name: nobody (`noop_coroutine`), a `Task`
frame by its allocation, the frame of `spawn_shim`. -/
inductive Handle
  | noop
  | task (b : Nat)
  | shim
deriving DecidableEq

/-- A result without its type. -/
def Kind.erase {E V : Type} : (k : Kind) → Except E (k.Ret V) → Except E (Option V)
  | .value, r => r.map some
  | .void, r => r.map fun _ => none

inductive Event (E V : Type)
  | created (h : Handle)
  | awaited (h : Handle) (child : Nat)
  | started (h : Handle)
  | finished (b : Nat)
  | continued (h : Handle) (child : Nat) (result : Except E (Option V))
  | destroyed (h : Handle)

variable {E V : Type} {k : Kind}

/-- Direct recursive evaluation: to await a child is to evaluate it. -/
def Body.eval {k : Kind} : Body E V k → Except E (k.Ret V)
  | .ret r => .ok r
  | .throw e => .error e
  | .await child next => (next child.eval).eval

/-- The frames made so far after the evaluation of a body, given those made before. -/
def Body.frames {k : Kind} : Body E V k → Nat → Nat
  | .ret _, n => n
  | .throw _, n => n
  | .await child next, n => (next child.eval).frames (child.frames (n + 1))

/-- What happens in the direct evaluation of the body of frame `b`, when `n`
frames have been made before: the child is made, started, evaluated to its
end, its result handed over and its frame destroyed, before anything else. -/
def Body.events {k : Kind} (b : Nat) : Body E V k → Nat → List (Event E V)
  | .ret _, _ => [.finished b]
  | .throw _, _ => [.finished b]
  | .await (j := j) child next, n =>
    [.created (.task n), .awaited (.task b) n, .started (.task n)] ++ child.events n (n + 1) ++
      [.continued (.task b) n (j.erase child.eval), .destroyed (.task n)] ++
        (next child.eval).events b (child.frames (n + 1))

theorem Body.le_frames (body : Body E V k) (n : Nat) : n ≤ body.frames n := by
  induction body generalizing n with
  | ret | throw => exact Nat.le_refl n
  | await child next ih ih' => exact Nat.le_trans (Nat.le_of_succ_le (ih (n + 1))) (ih' _ _)

end CoroNet.Coroutine
