import CoroNet.Coroutine.Machine

namespace CoroNet.Coroutine

open Function Transition

variable {E V : Type} {k : Kind} {m m' : Machine E V}

/-- The coroutine that is executing, if any is. -/
def Control.active : Control E V → List Handle
  | .body b .. | .coAwait b .. | .awaitResume b .. | .endExpression b .. | .finalSuspend b => [.task b]
  | .shimAwait | .shimResume _ | .shimReturn | .shimLeave | .aborted => [.shim]
  | _ => []

/-- The native stack holds the executing coroutine and no other. -/
def Machine.Flat (m : Machine E V) : Prop := m.stack = m.control.active

theorem Machine.Flat.keep (flat : m.Flat) (stack : m'.stack = m.stack)
    (same : m'.control.active = m.control.active) : m'.Flat :=
  stack.trans (flat.trans same.symm)

theorem Machine.Flat.resumeTask {b : Nat} (flat : m.Flat) (here : m.control = .resume (.task b)) :
    (m.resumeTask b).Flat := by
  have empty : m.stack = [] := flat.trans (by rw [here]; rfl)
  unfold Machine.resumeTask
  split
  · exact flat
  · split
    · exact congrArg _ empty
    · exact congrArg _ empty
    · exact flat
    · exact flat

theorem Machine.Flat.resumeShim (flat : m.Flat) (here : m.control = .resume .shim) : m.resumeShim.Flat := by
  have empty : m.stack = [] := flat.trans (by rw [here]; rfl)
  unfold Machine.resumeShim
  split
  · exact congrArg _ empty
  · exact flat

theorem Machine.Flat.coAwait {b child : Nat} {j : Kind} {next : Except E (j.Ret V) → Body E V k} (flat : m.Flat)
    (here : m.control = .coAwait b child j k next) : (m.coAwait b child j k next).Flat := by
  have one : m.stack = [.task b] := flat.trans (by rw [here]; rfl)
  unfold Machine.coAwait
  split
  · split
    · exact one
    · exact congrArg List.tail one
  · exact flat

theorem Machine.Flat.awaitResume {b child : Nat} {j : Kind} {next : Except E (j.Ret V) → Body E V k} (flat : m.Flat)
    (here : m.control = .awaitResume b child j k next) : (m.awaitResume b child j k next).Flat := by
  unfold Machine.awaitResume
  split
  · exact flat
  · split
    · exact flat
    · exact flat.keep rfl (by rw [here]; rfl)

theorem Machine.Flat.destroy {b : Nat} {next : Control E V} (flat : m.Flat)
    (same : next.active = m.control.active) : (m.destroy b next).Flat := by
  unfold Machine.destroy
  split
  · exact flat
  · split
    · exact flat.keep rfl same
    · exact flat

theorem Machine.Flat.settle {b : Nat} {store : Promise E V → Promise E V} {code : Body E V k} (flat : m.Flat)
    (here : m.control = .body b k code) : (m.settle b store).Flat := by
  unfold Machine.settle
  split
  · exact flat
  · exact flat.keep rfl (by rw [here]; rfl)

theorem Machine.Flat.finalSuspend {b : Nat} (flat : m.Flat) (here : m.control = .finalSuspend b) :
    (m.finalSuspend b).Flat := by
  have one : m.stack = [.task b] := flat.trans (by rw [here]; rfl)
  unfold Machine.finalSuspend
  split
  · exact flat
  · exact congrArg List.tail one

theorem Machine.Flat.readRoot (flat : m.Flat) (here : m.control = .returned) : (m.readRoot k).Flat := by
  unfold Machine.readRoot
  split
  · exact flat
  · split
    · split
      · exact flat
      · exact flat.keep rfl (by rw [here]; rfl)
    · exact flat

theorem Machine.Flat.shimAwait (flat : m.Flat) (here : m.control = .shimAwait) : m.shimAwait.Flat := by
  have one : m.stack = [.shim] := flat.trans (by rw [here]; rfl)
  unfold Machine.shimAwait
  split
  · exact flat
  · split
    · exact one
    · exact congrArg List.tail one

theorem Machine.Flat.shimResume {child : Nat} (flat : m.Flat) (here : m.control = .shimResume child) :
    (m.shimResume child).Flat := by
  unfold Machine.shimResume
  split
  · exact flat
  · split
    · exact flat
    next r _ =>
      refine flat.keep rfl ?_
      rw [here]
      cases r <;> rfl

theorem Machine.Flat.shimReturn (flat : m.Flat) (here : m.control = .shimReturn) : m.shimReturn.Flat := by
  unfold Machine.shimReturn
  split
  · exact flat.keep rfl (by rw [here]; rfl)
  · exact flat.destroy (by rw [here]; rfl)

theorem Machine.Flat.leaveSpawn (flat : m.Flat) (here : m.control = .spawned) : m.leaveSpawn.Flat := by
  unfold Machine.leaveSpawn
  split
  · exact flat.keep rfl (by rw [here]; rfl)
  · exact flat.destroy (by rw [here]; rfl)

theorem Machine.Flat.callShim (flat : m.Flat) (here : m.control = .spawn) : m.callShim.Flat := by
  have empty : m.stack = [] := flat.trans (by rw [here]; rfl)
  exact congrArg _ empty

theorem Machine.Flat.shimLeave (flat : m.Flat) (here : m.control = .shimLeave) : m.shimLeave.Flat := by
  have one : m.stack = [.shim] := flat.trans (by rw [here]; rfl)
  exact congrArg List.tail one

theorem Machine.Flat.only {next : Machine E V} (flat : next.Flat) (move : some next = some m') : m'.Flat :=
  Option.some.inj move ▸ flat

theorem Machine.Flat.next (flat : m.Flat) (move : m.next = some m') : m'.Flat := by
  unfold Machine.next at move
  split at move
  next here =>
    cases Option.some.inj move
    exact flat.keep rfl (by rw [here]; rfl)
  next here => exact (flat.resumeTask here).only move
  next here => exact (flat.resumeShim here).only move
  next here => exact (flat.settle here).only move
  next here => exact (flat.settle here).only move
  next here =>
    cases Option.some.inj move
    exact flat.keep rfl (by rw [here]; rfl)
  next here => exact (flat.coAwait here).only move
  next here => exact (flat.awaitResume here).only move
  next here => exact (flat.destroy (by rw [here]; rfl)).only move
  next here => exact (flat.finalSuspend here).only move
  next here =>
    split at move
    next => exact (flat.readRoot here).only move
    next => cases move
  next here => exact (flat.destroy (by rw [here]; rfl)).only move
  next here => exact (flat.callShim here).only move
  next here => exact (flat.shimAwait here).only move
  next here => exact (flat.shimResume here).only move
  next here => exact (flat.shimReturn here).only move
  next here => exact (flat.shimLeave here).only move
  next here => exact (flat.leaveSpawn here).only move
  all_goals cases move

theorem step_next {u : Unit} (move : step m u = some m') : m.fault = none ∧ m.next = some m' := by
  obtain ⟨sound, moved⟩ := Option.ite_none_left_eq_some.mp move
  exact ⟨by simpa using sound, moved⟩

theorem Control.active_length (control : Control E V) : control.active.length ≤ 1 := by
  cases control <;> simp [active]

/-- At any moment one coroutine at most is on the native stack. -/
theorem run_flat {acts : List Unit} {start : Machine E V} (flat : start.Flat) (reach : Run step start acts m) :
    m.stack.length ≤ 1 := by
  have flat : m.Flat := reach.invariant (P := Machine.Flat) flat fun flat move => flat.next (step_next move).2
  rw [flat]
  exact m.control.active_length

end CoroNet.Coroutine
