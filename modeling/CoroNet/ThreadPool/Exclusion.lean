import CoroNet.ThreadPool.Pool

namespace CoroNet.CoroThreadPool

open Function Transition

variable {n : Nat} {w w' : World n} {a : Act n}

/-- What a step can be. -/
inductive Move (w : World n) : Act n → World n → Prop
  | acquire {i : Fin n} : w.workers i = .top ∨ w.workers i = .woken → w.mutex = none →
      Move w (.acquire i) { w.set i .testing with mutex := some i }
  | pass {i : Fin n} : w.workers i = .testing → w.ready = true → Move w (.test i) (w.set i .passed)
  | commit {i : Fin n} : w.workers i = .testing → w.ready = false → Move w (.test i) (w.set i .committed)
  | block {i : Fin n} : w.workers i = .committed → Move w (.block i) { w.set i .blocked with mutex := none }
  | spurious {i : Fin n} : w.workers i = .blocked → Move w (.spurious i) (w.set i .woken)
  | exit {i : Fin n} : w.workers i = .passed → w.stopping = true → w.queue = [] →
      Move w (.take i) { w.set i .exited with mutex := none }
  | take {i : Fin n} {task : Nat} {rest : List Nat} : w.workers i = .passed → w.queue = task :: rest →
      Move w (.take i) { w.set i (.running task) with queue := rest, mutex := none }
  | takeFault {i : Fin n} : w.workers i = .passed → w.stopping = false → w.queue = [] →
      Move w (.take i) { w with fault := true }
  | finish {i : Fin n} {task : Nat} {threw : Bool} : w.workers i = .running task →
      Move w (.finish i threw) { w.set i .top with done := w.done ++ [task] }
  | push {task : Nat} : w.mutex = none →
      Move w (.push task) { w with queue := w.queue ++ [task], owing := w.owing + 1 }
  | wake {i : Fin n} : w.owing ≠ 0 → w.workers i = .blocked →
      Move w (.notifyOne (some i)) { w.set i .woken with owing := w.owing - 1 }
  | wakeNone : w.owing ≠ 0 → (∀ i, w.workers i ≠ .blocked) →
      Move w (.notifyOne none) { w with owing := w.owing - 1 }
  | store : w.stop = .ready → Move w .store { w with stopping := true, stop := .stored }
  | notifyAll : w.stop = .stored → Move w .notifyAll { w.wakeAll with stop := .notified }
  | join : w.stop = .notified → (∀ i, w.workers i = .exited) → Move w .join { w with stop := .joined }

theorem step_move (move : step w a = some w') : Move w a w' := by
  unfold step at move
  by_cases broken : w.fault = true
  · rw [if_pos broken] at move
    cases move
  rw [if_neg broken] at move
  cases a with
  | acquire i =>
    obtain ⟨⟨here, free⟩, moved⟩ := Option.ite_none_right_eq_some.mp move
    cases Option.some.inj moved
    exact .acquire here free
  | test i =>
    obtain ⟨here, moved⟩ := Option.ite_none_right_eq_some.mp move
    cases Option.some.inj moved
    cases ready : w.ready with
    | true => exact .pass here ready
    | false => exact .commit here ready
  | block i =>
    obtain ⟨here, moved⟩ := Option.ite_none_right_eq_some.mp move
    cases Option.some.inj moved
    exact .block here
  | spurious i =>
    obtain ⟨here, moved⟩ := Option.ite_none_right_eq_some.mp move
    cases Option.some.inj moved
    exact .spurious here
  | take i =>
    obtain ⟨here, moved⟩ := Option.ite_none_right_eq_some.mp move
    cases Option.some.inj moved
    cases queue : w.queue with
    | nil =>
      cases stopping : w.stopping with
      | true =>
        have taken : w.take i = { w.set i .exited with mutex := none } := by simp [World.take, stopping, queue]
        exact taken ▸ .exit here stopping queue
      | false =>
        have taken : w.take i = { w with fault := true } := by simp [World.take, stopping, queue]
        exact taken ▸ .takeFault here stopping queue
    | cons task rest =>
      have taken : w.take i = { w.set i (.running task) with queue := rest, mutex := none } := by
        simp [World.take, queue]
      exact taken ▸ .take here queue
  | finish i threw =>
    cases here : w.workers i <;> simp only [here, reduceCtorEq, Option.some.injEq] at move
    subst move
    exact .finish here
  | push task =>
    obtain ⟨free, moved⟩ := Option.ite_none_right_eq_some.mp move
    cases Option.some.inj moved
    exact .push free
  | notifyOne i =>
    obtain ⟨owes, move⟩ := Option.ite_none_left_eq_some.mp move
    cases i with
    | some i =>
      obtain ⟨here, moved⟩ := Option.ite_none_right_eq_some.mp move
      cases Option.some.inj moved
      exact .wake owes here
    | none =>
      obtain ⟨nobody, moved⟩ := Option.ite_none_right_eq_some.mp move
      cases Option.some.inj moved
      exact .wakeNone owes nobody
  | store =>
    obtain ⟨ready, moved⟩ := Option.ite_none_right_eq_some.mp move
    cases Option.some.inj moved
    exact .store ready
  | notifyAll =>
    obtain ⟨stored, moved⟩ := Option.ite_none_right_eq_some.mp move
    cases Option.some.inj moved
    exact .notifyAll stored
  | join =>
    obtain ⟨⟨notified, out⟩, moved⟩ := Option.ite_none_right_eq_some.mp move
    cases Option.some.inj moved
    exact .join notified out

/-- Inside the locked section of `worker_loop`. -/
def Inside (worker : Worker) : Prop := worker = .testing ∨ worker = .committed ∨ worker = .passed

/-- The mutex is held by the one worker inside, the predicate stays false for
one that is about to sleep, and true for one that is about to take a task. -/
structure Exclusive (w : World n) : Prop where
  fault : w.fault = false
  holder : ∀ i, Inside (w.workers i) → w.mutex = some i
  committed : ∀ i, w.workers i = .committed → w.queue = []
  passed : ∀ i, w.workers i = .passed → w.queue ≠ [] ∨ w.stopping = true

theorem Exclusive.start : Exclusive (start n) where
  fault := rfl
  holder := by
    rintro i (other | other | other) <;> cases other
  committed := nofun
  passed := nofun

theorem Exclusive.alone (exclusive : Exclusive w) {i j : Fin n} (here : Inside (w.workers i))
    (there : Inside (w.workers j)) : i = j :=
  Option.some.inj ((exclusive.holder i here).symm.trans (exclusive.holder j there))

theorem World.set_workers {w : World n} {i : Fin n} {worker : Worker} (j : Fin n) :
    (j = i ∧ (w.set i worker).workers j = worker) ∨ (j ≠ i ∧ (w.set i worker).workers j = w.workers j) := by
  by_cases same : j = i
  · subst same
    exact Or.inl ⟨rfl, update_self ..⟩
  · exact Or.inr ⟨same, update_of_ne same ..⟩

/-- The worker inside goes on, with the mutex or without it. -/
theorem Exclusive.proceed (exclusive : Exclusive w) {i : Fin n} {worker : Worker} {mutex : Option (Fin n)}
    {queue : List Nat} (here : Inside (w.workers i)) (keeps : Inside worker → mutex = some i)
    (committed : worker = .committed → queue = [])
    (passed : worker = .passed → queue ≠ [] ∨ w.stopping = true) :
    Exclusive { w.set i worker with mutex := mutex, queue := queue } := by
  have others : ∀ j, Inside ((w.set i worker).workers j) → j = i ∧ (w.set i worker).workers j = worker := by
    intro j inside
    rcases World.set_workers j with now | ⟨different, same⟩
    · exact now
    · rw [same] at inside
      exact absurd (exclusive.alone inside here) different
  refine ⟨exclusive.fault, fun j inside => ?_, fun j sleeps => ?_, fun j goes => ?_⟩
  · obtain ⟨rfl, same⟩ := others j inside
    exact keeps (same ▸ inside)
  · exact committed ((others j (Or.inr (Or.inl sleeps))).2.symm.trans sleeps)
  · exact passed ((others j (Or.inr (Or.inr goes))).2.symm.trans goes)

/-- Nobody comes inside, and those inside stay where they are. -/
theorem Exclusive.keep (exclusive : Exclusive w) (fault : w'.fault = w.fault) (mutex : w'.mutex = w.mutex)
    (queue : w'.queue = w.queue) (stopping : w'.stopping = w.stopping)
    (others : ∀ j, Inside (w'.workers j) → w'.workers j = w.workers j) : Exclusive w' := by
  refine ⟨fault.trans exclusive.fault, fun j inside => ?_, fun j sleeps => ?_, fun j goes => ?_⟩
  · rw [mutex]
    exact exclusive.holder j (others j inside ▸ inside)
  · rw [queue]
    exact exclusive.committed j ((others j (Or.inr (Or.inl sleeps))).symm.trans sleeps)
  · rw [queue, stopping]
    exact exclusive.passed j ((others j (Or.inr (Or.inr goes))).symm.trans goes)

/-- A worker outside moves to another place outside. -/
theorem Exclusive.wander (exclusive : Exclusive w) {i : Fin n} {worker : Worker} (outside : ¬ Inside worker) :
    Exclusive (w.set i worker) := by
  have others : ∀ j, Inside ((w.set i worker).workers j) → (w.set i worker).workers j = w.workers j := by
    intro j inside
    rcases World.set_workers j with ⟨_, now⟩ | ⟨_, same⟩
    · rw [now] at inside
      exact absurd inside outside
    · exact same
  exact exclusive.keep rfl rfl rfl rfl others

/-- With the mutex free nobody is inside. -/
theorem Exclusive.free (exclusive : Exclusive w) (free : w.mutex = none) (i : Fin n) : ¬ Inside (w.workers i) :=
  fun inside => Option.some_ne_none i ((exclusive.holder i inside).symm.trans free)

theorem Move.exclusive (move : Move w a w') (exclusive : Exclusive w) : Exclusive w' := by
  cases move with
  | @acquire i _ free =>
    have others : ∀ j, Inside ((w.set i .testing).workers j) → j = i ∧ (w.set i .testing).workers j = .testing := by
      intro j inside
      rcases World.set_workers j with now | ⟨_, same⟩
      · exact now
      · exact absurd (same ▸ inside) (exclusive.free free j)
    refine ⟨exclusive.fault, fun j inside => ?_, fun j sleeps => ?_, fun j goes => ?_⟩
    · rw [(others j inside).1]
    · cases (others j (Or.inr (Or.inl sleeps))).2.symm.trans sleeps
    · cases (others j (Or.inr (Or.inr goes))).2.symm.trans goes
  | @pass i here ready =>
    refine exclusive.proceed (Or.inl here) (fun _ => exclusive.holder i (Or.inl here)) nofun fun _ => ?_
    simpa [World.ready] using ready
  | @commit i here ready =>
    refine exclusive.proceed (Or.inl here) (fun _ => exclusive.holder i (Or.inl here)) (fun _ => ?_) nofun
    simp only [World.ready, Bool.or_eq_false_iff, Bool.not_eq_false', List.isEmpty_iff] at ready
    exact ready.1
  | block here => exact exclusive.proceed (Or.inr (Or.inl here)) (by simp [Inside]) nofun nofun
  | spurious => exact exclusive.wander (by simp [Inside])
  | exit here => exact exclusive.proceed (Or.inr (Or.inr here)) (by simp [Inside]) nofun nofun
  | take here => exact exclusive.proceed (Or.inr (Or.inr here)) (by simp [Inside]) nofun nofun
  | @takeFault i here stopping empty =>
    rcases exclusive.passed i here with some_task | up
    · exact absurd empty some_task
    · exact absurd (stopping.symm.trans up) Bool.false_ne_true
  | @finish i =>
    have next : Exclusive (w.set i .top) := exclusive.wander (by simp [Inside])
    exact ⟨next.fault, next.holder, next.committed, next.passed⟩
  | push free =>
    refine ⟨exclusive.fault, exclusive.holder, fun i sleeps => ?_, fun i _ => Or.inl (by simp)⟩
    exact absurd (Or.inr (Or.inl sleeps)) (exclusive.free free i)
  | @wake i =>
    have next : Exclusive (w.set i .woken) := exclusive.wander (by simp [Inside])
    exact ⟨next.fault, next.holder, next.committed, next.passed⟩
  | wakeNone => exact ⟨exclusive.fault, exclusive.holder, exclusive.committed, exclusive.passed⟩
  | store => exact ⟨exclusive.fault, exclusive.holder, exclusive.committed, fun _ _ => Or.inr rfl⟩
  | notifyAll =>
    have others : ∀ i, Inside (w.wakeAll.workers i) → w.wakeAll.workers i = w.workers i := by
      intro i inside
      by_cases asleep : w.workers i = .blocked
      · simp [World.wakeAll, asleep, Inside] at inside
      · simp [World.wakeAll, asleep]
    exact exclusive.keep rfl rfl rfl rfl others
  | join => exact ⟨exclusive.fault, exclusive.holder, exclusive.committed, exclusive.passed⟩

/-- In every run at most one worker is inside, and no task is taken from an
empty queue. -/
theorem run_exclusive {acts : List (Act n)} (reach : Run step (start n) acts w) : Exclusive w :=
  reach.invariant .start fun exclusive move => (step_move move).exclusive exclusive

end CoroNet.CoroThreadPool
