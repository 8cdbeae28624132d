import CoroNet.ThreadPool.Exclusion

namespace CoroNet.CoroThreadPool

open Function Transition

variable {n : Nat} {w w' : World n} {a : Act n}

/-- Asleep on the condition variable or with the mutex on the way there. -/
def Sleeping (worker : Worker) : Prop := worker = .blocked ∨ worker = .committed

/-- The step is not a `notify_all` that comes between a worker's test of the
predicate and its sleep. -/
def World.unhurried (w : World n) : Act n → Bool
  | .notifyAll => decide (∀ i, w.workers i ≠ .committed)
  | _ => true

/-- The flag is up from the store on, and nobody sleeps after the notification. -/
structure Awake (w : World n) : Prop where
  stored : w.stop ≠ .ready → w.stopping = true
  awake : w.stop = .notified ∨ w.stop = .joined → ∀ i, ¬ Sleeping (w.workers i)

theorem Awake.start : Awake (start n) where
  stored := fun late => absurd rfl late
  awake := by
    rintro (late | late) <;> cases late

/-- A worker that does not go to sleep changes nothing for `stop`. -/
theorem Awake.set (awake : Awake w) {i : Fin n} {worker : Worker}
    (stays : w.stop = .notified ∨ w.stop = .joined → ¬ Sleeping worker) : Awake (w.set i worker) := by
  refine ⟨awake.stored, fun late j => ?_⟩
  by_cases same : j = i
  · subst same
    simpa [World.set] using stays late
  · simpa [World.set, update_of_ne same] using awake.awake late j

theorem Awake.congr (awake : Awake w) (workers : w'.workers = w.workers) (stop : w'.stop = w.stop)
    (stopping : w'.stopping = w.stopping) : Awake w' := by
  refine ⟨fun late => ?_, fun late => ?_⟩
  · rw [stop] at late
    rw [stopping]
    exact awake.stored late
  · rw [stop] at late
    rw [workers]
    exact awake.awake late

theorem Move.awake (move : Move w a w') (awake : Awake w) (unhurried : w.unhurried a = true) : Awake w' := by
  cases move with
  | commit _ ready =>
    refine awake.set fun late => ?_
    have up : w.stopping = true := awake.stored (by rcases late with late | late <;> simp [late])
    simp [World.ready, up] at ready
  | @block i here =>
    refine (awake.set fun late => ?_).congr rfl rfl rfl
    exact absurd (Or.inr here) (awake.awake late i)
  | acquire | pass | spurious | exit | take | finish | wake =>
    exact (awake.set fun _ => by simp [Sleeping]).congr rfl rfl rfl
  | takeFault | push | wakeNone => exact awake.congr rfl rfl rfl
  | store =>
    refine ⟨fun _ => rfl, ?_⟩
    rintro (late | late) <;> cases late
  | notifyAll stored =>
    have none_committed : ∀ i, w.workers i ≠ .committed := of_decide_eq_true unhurried
    refine ⟨fun _ => awake.stored (by simp [stored]), fun _ i => ?_⟩
    by_cases asleep : w.workers i = .blocked
    · simp [World.wakeAll, Sleeping, asleep]
    · simp [World.wakeAll, Sleeping, asleep, none_committed i]
  | join notified => exact ⟨fun _ => awake.stored (by simp [notified]), fun _ => awake.awake (Or.inl notified)⟩

/-- The condition is exact: with no notification of a producer on its way, a
`notify_all` in between strands the worker at once. -/
theorem notify_strands_iff {acts : List (Act n)} (reach : Run step (start n) acts w) (none_owing : w.owing = 0)
    (move : step w .notifyAll = some w') : Stranded w' ↔ ∃ i, w.workers i = .committed := by
  have exclusive := run_exclusive reach
  have stored : w.stop ≠ .ready → w.stopping = true := by
    refine (reach.invariant (P := fun w => w.stop ≠ .ready → w.stopping = true) (fun late => absurd rfl late) ?_)
    intro t a u before move late
    have move := step_move move
    cases move with
    | store => rfl
    | notifyAll stored => exact before (by simp [stored])
    | join notified => exact before (by simp [notified])
    | _ => exact before late
  have move := step_move move
  cases move with
  | notifyAll at_store =>
    constructor
    · rintro ⟨_, _, _, _, i, asleep⟩
      by_cases blocked : w.workers i = .blocked
      · simp [World.wakeAll, blocked] at asleep
      · simp only [World.wakeAll, if_neg blocked] at asleep
        exact ⟨i, asleep.resolve_left blocked⟩
    · rintro ⟨i, sleeps⟩
      refine ⟨Or.inl rfl, stored (by simp [at_store]), exclusive.committed i sleeps, none_owing, i, Or.inr ?_⟩
      simp [World.wakeAll, sleeps]

/-- As long as `notify_all` does not come between a worker's test and its
sleep, `stop` strands nobody; when it does, it strands the worker. -/
theorem stop_strands_nobody {acts : List (Act n)}
    (reach : RunWhile step (fun w a => w.unhurried a = true) (start n) acts w) :
    ¬ Stranded w ∧ ∀ w', w.owing = 0 → step w .notifyAll = some w' →
      (Stranded w' ↔ ∃ i, w.workers i = .committed) := by
  refine ⟨?_, fun w' none_owing move => notify_strands_iff reach.run none_owing move⟩
  rintro ⟨late, _, _, _, i, asleep⟩
  have awake : Awake w := reach.invariant .start fun awake unhurried move => (step_move move).awake awake unhurried
  exact awake.awake late i asleep

/-- A sleeping worker is notified in time. -/
def timelyStop : List (Act 2) :=
  [.acquire 0, .test 0, .block 0, .push 7, .acquire 1, .test 1, .notifyOne (some 0), .take 1, .store, .notifyAll,
    .acquire 0, .test 0, .take 0, .finish 1 true, .acquire 1, .test 1, .take 1, .join]

theorem timely_stop_joins : (after step (start 2) timelyStop).stop = .joined ∧
    ¬ Stranded (after step (start 2) timelyStop) := by
  have reach : RunWhile step (fun w a => w.unhurried a = true) (start 2) timelyStop
      (after step (start 2) timelyStop) := guarded_run (run_eq_some rfl)
  exact ⟨rfl, (stop_strands_nobody reach).1⟩

/-- The worker has found the predicate false when the store and the
notification come, and blocks after them. -/
def lostWakeup : List (Act 1) := [.acquire 0, .test 0, .store, .notifyAll, .block 0]

theorem stop_strands_worker : ∃ w, Run step (start 1) lostWakeup w ∧ Stranded w :=
  ⟨after step (start 1) lostWakeup, run_eq_some rfl, Or.inl rfl, rfl, rfl, rfl, 0, Or.inl rfl⟩

end CoroNet.CoroThreadPool
