import CoroNet.ThreadPool.Tasks

namespace CoroNet.CoroThreadPool

variable {n : Nat} {w w' : World n} {a : Act n}

/-- What holds of a pool that is not stopped. -/
structure Serving (w : World n) : Prop where
  exclusive : Exclusive w
  attended : Attended w
  stop : w.stop = .ready

theorem Serving.start : Serving (start n) := ⟨.start, .start, rfl⟩

theorem Serving.step (serving : Serving w) (positive : 0 < n) (moved : step w a = some w') (no_stop : a ≠ .store) :
    Serving w' := by
  have move := step_move moved
  refine ⟨move.exclusive serving.exclusive, move.attended positive serving.exclusive serving.attended, ?_⟩
  have open_still := serving.stop
  cases move with
  | store => exact absurd rfl no_stop
  | notifyAll late => exact absurd (open_still.symm.trans late) nofun
  | join late => exact absurd (open_still.symm.trans late) nofun
  | _ => exact open_still

theorem World.set_running {i j : Fin n} {worker : Worker} {s : Nat} (before : ∀ s, w.workers i ≠ .running s)
    (after : ∀ s, worker ≠ .running s) : (w.set i worker).workers j = .running s ↔ w.workers j = .running s := by
  by_cases same : j = i
  · rw [same, World.set_self]
    exact ⟨fun now => absurd now (after s), fun then_ => absurd then_ (before s)⟩
  · rw [World.set_other same]

/-- A step of the loop of a worker before it takes a task. -/
theorem Move.waiting (move : Move w a w') (no_stop : a ≠ .store ∧ a ≠ .notifyAll ∧ a ≠ .join)
    (no_task : (∀ i, a ≠ .take i) ∧ (∀ i threw, a ≠ .finish i threw) ∧ ∀ task, a ≠ .push task) :
    w'.queue = w.queue ∧ ∀ i s, w'.workers i = .running s ↔ w.workers i = .running s := by
  cases move with
  | acquire here =>
    refine ⟨rfl, fun _ _ => World.set_running (fun _ runs => ?_) nofun⟩
    rcases here with top | woken
    · cases top.symm.trans runs
    · cases woken.symm.trans runs
  | pass here | commit here | block here | spurious here =>
    exact ⟨rfl, fun _ _ => World.set_running (fun _ runs => nomatch here.symm.trans runs) nofun⟩
  | wake _ here =>
    exact ⟨rfl, fun _ _ => World.set_running (fun _ runs => nomatch here.symm.trans runs) nofun⟩
  | wakeNone => exact ⟨rfl, fun _ _ => Iff.rfl⟩
  | exit | take | takeFault => exact absurd rfl (no_task.1 _)
  | finish => exact absurd rfl (no_task.2.1 _ _)
  | push => exact absurd rfl (no_task.2.2 _)
  | store => exact absurd rfl no_stop.1
  | notifyAll => exact absurd rfl no_stop.2.1
  | join => exact absurd rfl no_stop.2.2

/-- While the pool is not stopped a worker that leaves the wait takes a task. -/
theorem Serving.takes (serving : Serving w) {i : Fin n} (moved : CoroThreadPool.step w (.take i) = some w') :
    ∃ task rest, w.workers i = .passed ∧ w.queue = task :: rest ∧ w'.queue = rest ∧
      w'.workers = (w.set i (.running task)).workers := by
  have going := serving.attended.running serving.stop
  cases step_move moved with
  | exit _ up => exact absurd (going.symm.trans up) nofun
  | take here queue => exact ⟨_, _, here, queue, rfl, rfl⟩
  | takeFault here _ empty =>
    rcases serving.exclusive.passed i here with some_task | up
    · exact absurd empty some_task
    · exact absurd (going.symm.trans up) nofun

end CoroNet.CoroThreadPool
