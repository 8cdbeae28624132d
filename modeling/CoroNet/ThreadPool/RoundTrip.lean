import CoroNet.ThreadPool.StageSteps

namespace CoroNet.Submit

open Function Transition Scheduler CoroThreadPool

variable {m n : Nat} {ε ρ : Type} {w w' : World m n ε ρ} {a : Act m n ε ρ} {stage : Nat → Stage n}

theorem Waiting.listed {s entries c : Nat} {j : Fin m} {aw : SubmitAwaiter m ε ρ} (waiting : Waiting w s aw entries)
    (listed : w.submitted[s]? = some (j, c)) : aw.srcSched = j ∧ aw.handle = c := by
  cases Option.some.inj (waiting.mine.symm.trans listed)
  exact ⟨rfl, rfl⟩

/-- A boot task of a scheduler starts coroutine `c`, which submits a function. -/
def submits (j : Fin 2) (c : Nat) : List (Act 2 2 String Nat) :=
  [.scheduler j (.queueBootTask 0), .scheduler j .next, .scheduler j .next, .scheduler j .next, .scheduler j .next,
    .scheduler j .next, .scheduler j .next, .scheduler j .next, .scheduler j (.spawn c), .submit j]

/-- A worker takes a function, calls it, posts the handle and writes. -/
def serves (i : Fin 2) (outcome : Except String Nat) : List (Act 2 2 String Nat) :=
  [.worker (.acquire i), .worker (.test i), .worker (.take i), .execute i outcome, .post i, .wake i]

end CoroNet.Submit
