import CoroNet.Server.StartStop

namespace CoroNet.TcpServer.StartStop

open Function Transition

variable {n : Nat} {w w' : World n} {a : Act n} {i j : Fin (n + 1)} {acts : List (Act n)}

theorem queueBootTask_cases {k : Nat} {f : Scheduler.Task} {next : Start} (move : w.queueBootTask k f next = some w') :
    ∃ i u, w.act i (.queueBootTask f) = some u ∧ w' = { u with start := next } := by
  unfold World.queueBootTask at move
  split at move
  next below =>
    obtain ⟨u, moved, rfl⟩ := Option.map_eq_some_iff.mp move
    exact ⟨⟨k, below⟩, u, moved, rfl⟩
  next => cases move

/-- The two calls before the pool is there, and once each has begun. -/
structure Begun (w : World n) : Prop where
  fresh : w.start = .ready ∨ w.start = .exchanged → w.pool = none
  running : w.start ≠ .ready → w.stop = .ready → w.running = true

theorem act_frame {b : Scheduler.Act} (moved : w.act i b = some w') :
    w'.start = w.start ∧ w'.stop = w.stop ∧ w'.running = w.running ∧ w.pool ≠ none := by
  obtain ⟨scheds, s, here, _, rfl⟩ := act_cases moved
  exact ⟨rfl, rfl, rfl, by simp [here]⟩

theorem Begun.act {b : Scheduler.Act} (held : Begun w) (moved : w.act i b = some w') : Begun w' := by
  obtain ⟨start, stop, running, made⟩ := act_frame moved
  refine ⟨fun early => absurd (held.fresh (start ▸ early)) made, ?_⟩
  rw [start, stop, running]
  exact held.running

theorem Begun.step (held : Begun w) (move : Step w a w') : Begun w' := by
  cases move with
  | call here => exact ⟨fun _ => held.fresh (Or.inl here), fun _ _ => rfl⟩
  | callAgain here running => exact ⟨fun early => by simp at early, fun _ _ => running⟩
  | build here => exact ⟨fun early => by simp at early, fun _ => held.running (by simp [here])⟩
  | goOn begun _ ready exchanged =>
    exact ⟨fun early => absurd early (not_or.mpr ⟨ready, exchanged⟩), fun _ => held.running begun⟩
  | boot begun _ ready exchanged moved =>
    obtain ⟨i, u, acted, rfl⟩ := queueBootTask_cases moved
    obtain ⟨start, stop, running, _⟩ := act_frame acted
    refine ⟨fun early => absurd early (not_or.mpr ⟨ready, exchanged⟩), fun _ idle => ?_⟩
    exact running.trans (held.running begun (stop.symm.trans idle))
  | stop => exact ⟨held.fresh, fun _ idle => by simp at idle⟩
  | stopAgain => exact held
  | shut _ next => exact ⟨held.fresh, fun _ idle => by rcases next with rfl | rfl <;> simp at idle⟩
  | test => exact ⟨held.fresh, fun _ idle => by simp only at idle; split_ifs at idle⟩
  | post _ moved => exact ⟨(held.act moved).fresh, fun _ idle => by simp at idle⟩
  | posted => exact ⟨held.fresh, fun _ idle => by simp at idle⟩
  | wake _ moved => exact ⟨(held.act moved).fresh, fun _ idle => by simp at idle⟩
  | worker moved => exact held.act moved

/-- The pool is stored once, so what has been queued stays queued. -/
theorem Queued.step (queued : Queued w j) (held : Begun w) (move : Step w a w') : Queued w' j := by
  cases move with
  | build here =>
    obtain ⟨scheds, made, _⟩ := queued
    exact absurd (made.symm.trans (held.fresh (Or.inr here))) (by simp)
  | boot _ _ _ _ moved =>
    obtain ⟨i, u, acted, rfl⟩ := queueBootTask_cases moved
    have kept := queued.act acted
    exact kept
  | post _ moved | wake _ moved | worker moved =>
    have kept := queued.act moved
    exact kept
  | _ => exact queued

/-- How far `stop()` has got with its tasks. -/
structure Posted (w : World n) : Prop where
  below : ∀ k, w.stop = .posting k → ∀ i : Fin (n + 1), i < k → Queued w i
  within : ∀ k, w.stop = .waking k → ∀ i : Fin (n + 1), i ≤ k → Queued w i
  all : w.stop = .returned → ∀ i, Queued w i

theorem Posted.keep (held : Posted w) (begun : Begun w) (move : Step w a w') (same : w'.stop = w.stop) : Posted w' :=
  ⟨fun k here i lt => (held.below k (same ▸ here) i lt).step begun move,
    fun k here i le => (held.within k (same ▸ here) i le).step begun move,
    fun here i => (held.all (same ▸ here) i).step begun move⟩

theorem Posted.step (held : Posted w) (begun : Begun w) (timely : poolMade w a = true) (move : Step w a w') :
    Posted w' := by
  have kept := fun i (queued : Queued w i) => Queued.step queued begun move
  have again := move
  cases move with
  | call | callAgain | build | goOn => exact held.keep begun again rfl
  | boot _ _ _ _ moved =>
    obtain ⟨i, u, acted, rfl⟩ := queueBootTask_cases moved
    exact held.keep begun again (act_frame acted).2.1
  | stop => exact ⟨fun _ here => by simp at here, fun _ here => by simp at here, fun here => by simp at here⟩
  | stopAgain => exact held
  | shut _ next =>
    refine ⟨fun _ here => ?_, fun _ here => ?_, fun here => ?_⟩ <;> rcases next with rfl | rfl <;> simp at here
  | test here =>
    have made : w.pool.isSome = true := by simpa [poolMade, here] using timely
    simp only [made, if_true]
    refine ⟨fun k zero i lt => ?_, fun _ here => by simp at here, fun here => by simp at here⟩
    cases zero
    exact absurd lt (Nat.not_lt_zero _)
  | @post m u here moved =>
    refine ⟨fun _ place => by simp at place, fun k place i le => ?_, fun place => by simp at place⟩
    cases place
    rcases Nat.lt_or_eq_of_le le with lt | same
    · exact kept i (held.below _ here i lt)
    · cases Fin.ext same
      have queued := act_queued moved
      exact queued
  | posted here beyond =>
    refine ⟨fun _ place => by simp at place, fun _ place => by simp at place, fun _ i => ?_⟩
    exact kept i (held.below _ here i (by omega))
  | wake here moved =>
    refine ⟨fun k place i lt => ?_, fun _ place => by simp at place, fun place => by simp at place⟩
    cases place
    exact kept i (held.within _ here i (Nat.le_of_lt_succ lt))
  | worker moved => exact held.keep begun again (act_frame moved).2.1

theorem start_begun (entries : Nat) (sqpoll : Bool) (idle : Int) : Begun (start n entries sqpoll idle) :=
  ⟨fun _ => rfl, fun begun => absurd rfl begun⟩

/-- Where `stop()` has not tested `pool_` too early, both calls have returned
and the server is not running, every worker has the task that stops it, those
without a thread yet included. -/
theorem stop_reaches_workers {entries : Nat} {sqpoll : Bool} {idle : Int}
    (reach : RunWhile step (fun w a => poolMade w a = true) (start n entries sqpoll idle) acts w) (ended : Over w)
    (i : Fin (n + 1)) : i < w.started → Queued w i ∨ Flagged w i := by
  intro _
  have held : Begun w ∧ Posted w := by
    refine reach.invariant (P := fun w => Begun w ∧ Posted w) ⟨start_begun entries sqpoll idle, ?_⟩ ?_
    · exact ⟨(fun _ here => by cases here), (fun _ here => by cases here), (fun here => by cases here)⟩
    · intro w a w' held timely move
      have moved := step_cases move
      exact ⟨held.1.step moved, held.2.step held.1 timely moved⟩
  rcases ended.stopped with returned | never
  · exact Or.inl (held.2.all returned i)
  · have running := held.1.running (by simp [ended.started]) never
    exact absurd (ended.down.symm.trans running) (by simp)

/-- One worker: `start()` runs to its end, then `stop()`. -/
def inOrder : List (Act 0) :=
  [.start] ++ List.replicate 9 (.startNext 5) ++ [.stop] ++ List.replicate 6 .stopNext

theorem stop_after_start_reaches :
    let w := after step (start 0 8 false 0) inOrder
    w.started = 1 ∧ (Queued w (Fin.last 0) ∨ Flagged w (Fin.last 0)) := by
  have reach : RunWhile step (fun w a => poolMade w a = true) (start 0 8 false 0) inOrder
      (after step (start 0 8 false 0) inOrder) := guarded_run (run_eq_some rfl)
  exact ⟨rfl, stop_reaches_workers reach ⟨rfl, Or.inl rfl, rfl⟩ (Fin.last 0) (by decide)⟩

/-- The signal arrives right after the exchange of `running_`: `stop()` finds
no pool and returns, and `start()` goes on. -/
def signalled : List (Act 0) := [.start, .stop, .stopNext, .stopNext] ++ List.replicate 9 (.startNext 5)

/-- Then the thread runs, nothing was queued that stops it, nothing has set
its flag, and another `stop()` does nothing. -/
theorem stop_during_start_lost :
    let w := after step (start 0 8 false 0) signalled
    Run step (start 0 8 false 0) signalled w ∧ Over w ∧ w.started = 1 ∧
      ¬ (Queued w (Fin.last 0) ∨ Flagged w (Fin.last 0)) ∧ step w .stop = some w := by
  refine ⟨run_eq_some rfl, ⟨rfl, Or.inl rfl, rfl⟩, rfl, ?_, rfl⟩
  rintro (⟨scheds, made, member⟩ | ⟨scheds, made, flag⟩)
  · cases made
    simp [stopTask, acceptTask, Scheduler.start] at member
  · cases made
    cases flag

end CoroNet.TcpServer.StartStop
