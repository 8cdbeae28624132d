import CoroNet.Scheduler.Moves

namespace CoroNet.SchedulerPool

open Function Transition Scheduler

variable {n : Nat}

/-- Where the thread that owns the pool is: `starting k` is the loop of
`start()` with `k` threads spawned, `idle` is between the calls after it,
`stopping k` the loop of `stop_all()` at scheduler `k`, `waking k` inside its
`stop()` after the flag is set, `waiting k` the joins of `wait()`. -/
inductive Main
  | constructed
  | starting (k : Nat)
  | idle
  | stopping (k : Nat)
  | waking (k : Nat)
  | waiting (k : Nat)
  | joined
deriving DecidableEq

/-- The schedulers of a pool and its owner, which is the foreign thread 0 to each of them. -/
structure Pool (n : Nat) where
  schedulers : Fin n → World
  main : Main := .constructed

/-- The number of threads spawned so far. -/
def Main.threads (n : Nat) : Main → Nat
  | .constructed => 0
  | .starting k => k
  | _ => n

/-- The owner goes on; it calls `start()`, `stop_all()` or `wait()`; something
else happens at a scheduler. -/
inductive Act (n : Nat)
  | main
  | start
  | stopAll
  | wait
  | scheduler (i : Fin n) (a : Scheduler.Act)

/-- The actions of the thread that runs a scheduler. -/
def onWorker : Scheduler.Act → Bool
  | .next | .interrupt | .fail | .spawn _ | .suspend _ | .park | .finish | .selfPost _ | .selfStop | .ret
  | .raise => true
  | _ => false

/-- The actions of the foreign thread 0, which the pool's owner takes itself. -/
def byOwner : Scheduler.Act → Bool
  | .post t _ | .postTask t _ | .stop t | .wake t => decide (t = 0)
  | _ => false

namespace Pool

def set (p : Pool n) (i : Fin n) (w : World) : Pool n := { p with schedulers := update p.schedulers i w }

/-- A step of scheduler `i`, after which the owner is at `main`. -/
def act (p : Pool n) (i : Fin n) (a : Scheduler.Act) (main : Main) : Option (Pool n) :=
  (Scheduler.step (p.schedulers i) a).map fun w => { p.set i w with main := main }

/-- The next step of the owner inside `start()`, `stop_all()` or `wait()`. -/
def next (p : Pool n) : Option (Pool n) :=
  match p.main with
  | .starting k => some { p with main := if k < n then .starting (k + 1) else .idle }
  | .stopping k =>
    if h : k < n then
      p.act ⟨k, h⟩ (.stop 0) (if (p.schedulers ⟨k, h⟩).stopping then .stopping (k + 1) else .waking k)
    else some { p with main := .idle }
  | .waking k => if h : k < n then p.act ⟨k, h⟩ (.wake 0) (.stopping (k + 1)) else none
  | .waiting k =>
    if h : k < n then
      if (p.schedulers ⟨k, h⟩).pc = .returned then some { p with main := .waiting (k + 1) } else none
    else some { p with main := .joined }
  | .constructed | .idle | .joined => none

end Pool

def step (p : Pool n) : Act n → Option (Pool n)
  | .main => p.next
  | .start => if p.main = .constructed then some { p with main := .starting 0 } else none
  | .stopAll => if p.main = .idle then some { p with main := .stopping 0 } else none
  | .wait => if p.main = .idle then some { p with main := .waiting 0 } else none
  | .scheduler i a =>
    if byOwner a ∨ onWorker a ∧ p.main.threads n ≤ i then none else p.act i a p.main

/-- A pool of `n` schedulers that have not been started. -/
def start (n entries : Nat) (sqpoll : Bool) : Pool n := { schedulers := fun _ => Scheduler.start entries sqpoll }

variable {p p' : Pool n} {a : Act n} {w w' : World} {b : Scheduler.Act} {i : Fin n}

/-- `run()` is past its store to `stopping_`. -/
def Stored (w : World) : Prop := w.pc ≠ .created ∧ w.pc ≠ .entered

/-- After the store nothing takes a stop back. -/
theorem stopping_stays (move : Move w b w') (stored : Stored w) (stopping : w.stopping = true) :
    Stored w' ∧ w'.stopping = true := by
  cases move with
  | goto goto =>
    refine ⟨?_, stopping⟩
    cases goto with
    | enter here => exact absurd here stored.1
    | _ => exact ⟨nofun, nofun⟩
  | rearm rearms | rearmFull rearms => exact ⟨by cases rearms <;> exact ⟨nofun, nofun⟩, stopping⟩
  | store here => exact absurd here stored.2
  | drain | runTask | resumeIo | resumeParked | submit | null | timers | completion | completionFreed | advance =>
    exact ⟨⟨nofun, nofun⟩, stopping⟩
  | selfStop | selfStopFull | stop => exact ⟨stored, rfl⟩
  | _ => exact ⟨stored, stopping⟩

theorem Pool.act_eq_some {main : Main} (moved : p.act i b main = some p') :
    ∃ w, Scheduler.step (p.schedulers i) b = some w ∧ p' = { p.set i w with main := main } := by
  obtain ⟨w, move, rfl⟩ := Option.map_eq_some_iff.mp moved
  exact ⟨w, move, rfl⟩

theorem Pool.act_scheduler {main : Main} (moved : p.act i b main = some p') (j : Fin n) :
    p'.schedulers j = p.schedulers j ∨ Scheduler.step (p.schedulers j) b = some (p'.schedulers j) := by
  obtain ⟨w, move, rfl⟩ := Pool.act_eq_some moved
  by_cases same : j = i
  · rw [same]
    exact Or.inr (by simpa [Pool.set] using move)
  · exact Or.inl (update_of_ne same ..)

/-- A step of the pool is a step of each scheduler or leaves it alone. -/
theorem step_scheduler (move : step p a = some p') (j : Fin n) :
    p'.schedulers j = p.schedulers j ∨ ∃ b, Scheduler.step (p.schedulers j) b = some (p'.schedulers j) := by
  cases a with
  | main =>
    simp only [step, Pool.next] at move
    split at move
    next =>
      cases Option.some.inj move
      exact Or.inl rfl
    next =>
      split at move
      next => exact (Pool.act_scheduler move j).imp_right fun moved => ⟨_, moved⟩
      next =>
        cases Option.some.inj move
        exact Or.inl rfl
    next =>
      split at move
      next => exact (Pool.act_scheduler move j).imp_right fun moved => ⟨_, moved⟩
      next => cases move
    next =>
      split at move
      next =>
        obtain ⟨_, moved⟩ := Option.ite_none_right_eq_some.mp move
        cases Option.some.inj moved
        exact Or.inl rfl
      next =>
        cases Option.some.inj move
        exact Or.inl rfl
    all_goals cases move
  | start | stopAll | wait =>
    obtain ⟨_, moved⟩ := Option.ite_none_right_eq_some.mp move
    cases Option.some.inj moved
    exact Or.inl rfl
  | scheduler i b =>
    obtain ⟨_, moved⟩ := Option.ite_none_left_eq_some.mp move
    exact (Pool.act_scheduler moved j).imp_right fun moved => ⟨b, moved⟩

/-- The step executes the exchange of a `stop()` on scheduler `i`. -/
def Stops (p : Pool n) (i : Fin n) : Act n → Prop
  | .main => p.main = .stopping i
  | .scheduler j b => j = i ∧ (b = .selfStop ∨ ∃ t, b = .stop t)
  | _ => False

/-- `start()` has returned. -/
def Started : Main → Prop
  | .constructed | .starting _ => False
  | _ => True

theorem Pool.act_set {main : Main} (moved : p.act i b main = some p') :
    p'.main = main ∧ Scheduler.step (p.schedulers i) b = some (p'.schedulers i) := by
  obtain ⟨w, move, rfl⟩ := Pool.act_eq_some moved
  exact ⟨rfl, by simpa [Pool.set] using move⟩

/-- What a `stop()` does to its scheduler. -/
theorem stop_sets (move : Scheduler.step w b = some w') (stops : b = .selfStop ∨ ∃ t, b = .stop t) :
    w'.stopping = true ∧ w'.pc = w.pc ∧ w'.fault = none := by
  obtain ⟨alive, moved⟩ := step_move move
  rcases stops with rfl | ⟨t, rfl⟩
  · cases moved with
    | goto goto => cases goto
    | rearm rearms | rearmFull rearms => cases rearms
    | selfStop | selfStopFull => exact ⟨rfl, rfl, alive⟩
    | selfStopAgain _ up => exact ⟨up, rfl, alive⟩
  · cases moved with
    | goto goto => cases goto
    | rearm rearms | rearmFull rearms => cases rearms
    | stop => exact ⟨rfl, rfl, alive⟩
    | stopAgain _ up => exact ⟨up, rfl, alive⟩

theorem Stops.sets (stops : Stops p i a) (started : Started p.main) (move : step p a = some p') :
    Started p'.main ∧ (p'.schedulers i).stopping = true ∧ (p'.schedulers i).pc = (p.schedulers i).pc ∧
      (p'.schedulers i).fault = none := by
  cases a with
  | main =>
    have here : p.main = .stopping i := stops
    simp only [step, Pool.next, here, i.isLt, dif_pos] at move
    obtain ⟨main, moved⟩ := Pool.act_set move
    refine ⟨?_, stop_sets moved (Or.inr ⟨0, rfl⟩)⟩
    rw [main]
    split <;> trivial
  | scheduler j b =>
    obtain ⟨rfl, stops⟩ := stops
    obtain ⟨_, move⟩ := Option.ite_none_left_eq_some.mp move
    obtain ⟨main, moved⟩ := Pool.act_set move
    exact ⟨main ▸ started, stop_sets moved stops⟩
  | _ => exact absurd stops id

/-- After `start()` every scheduler has a thread, which can take its next step. -/
theorem worker_moves (started : Started p.main) (move : Scheduler.step (p.schedulers i) .next = some w) :
    step p (.scheduler i .next) = some (p.set i w) := by
  have threads : p.main.threads n = n := by
    cases here : p.main <;> simp_all [Started, Main.threads]
  have allowed : ¬ (byOwner .next = true ∨ onWorker .next = true ∧ p.main.threads n ≤ i) := by
    rw [threads]
    simp [byOwner, i.isLt]
  simp only [step, if_neg allowed, Pool.act, move, Option.map_some]
  rfl

/-- A worker that has not stored to `stopping_` yet can go on and do so. -/
theorem store_reachable (started : Started p.main) (alive : (p.schedulers i).fault = none)
    (early : (p.schedulers i).pc = .created ∨ (p.schedulers i).pc = .entered) :
    ∃ acts p', Run step p acts p' ∧ (p'.schedulers i).pc = .cleared ∧ (p'.schedulers i).stopping = false := by
  have store : ∀ q : Pool n, Started q.main → (q.schedulers i).fault = none → (q.schedulers i).pc = .entered →
      ∃ p', step q (.scheduler i .next) = some p' ∧ (p'.schedulers i).pc = .cleared ∧ (p'.schedulers i).stopping = false := by
    intro q started alive here
    have move : Scheduler.step (q.schedulers i) .next =
        some { q.schedulers i with stopping := false, stopper := none, pc := .cleared } := by
      simp [Scheduler.step, World.next, alive, here]
    exact ⟨_, worker_moves started move, by simp [Pool.set], by simp [Pool.set]⟩
  rcases early with here | here
  · have move : Scheduler.step (p.schedulers i) .next = some { p.schedulers i with pc := .entered } := by
      simp [Scheduler.step, World.next, alive, here]
    have entered := worker_moves started move
    obtain ⟨p', stored, cleared, flag⟩ :=
      store (p.set i { p.schedulers i with pc := .entered }) started (by simpa [Pool.set] using alive) (by simp [Pool.set])
    exact ⟨_, p', (Run.single entered).trans (Run.single stored), cleared, flag⟩
  · obtain ⟨p', stored, cleared, flag⟩ := store p started alive here
    exact ⟨_, p', Run.single stored, cleared, flag⟩

/-- A stop that is issued after `start()` has returned lasts until `run()`
returns, whatever follows, if and only if `run()` is past its store to `stopping_`. -/
theorem stop_lasts_iff (started : Started p.main) (stops : Stops p i a) (move : step p a = some p') :
    (∀ more p'', Run step p' more p'' → (p''.schedulers i).pc ≠ .returned → (p''.schedulers i).stopping = true) ↔
      Stored (p.schedulers i) := by
  obtain ⟨started', flag, pc, alive⟩ := stops.sets started move
  refine ⟨fun lasts => ?_, fun stored more p'' later _ => ?_⟩
  · by_contra early
    have here : (p'.schedulers i).pc = .created ∨ (p'.schedulers i).pc = .entered := by
      rw [pc]
      simp only [Stored, not_and_or, ne_eq, not_not] at early
      exact early
    obtain ⟨more, p'', later, cleared, unset⟩ := store_reachable started' alive here
    have set := lasts more p'' later (by simp [cleared])
    exact absurd (unset.symm.trans set) nofun
  · have first : Stored (p'.schedulers i) ∧ (p'.schedulers i).stopping = true := by
      rw [Stored, pc]
      exact ⟨stored, flag⟩
    have kept : Stored (p''.schedulers i) ∧ (p''.schedulers i).stopping = true := by
      refine later.invariant (P := fun q => Stored (q.schedulers i) ∧ (q.schedulers i).stopping = true) first ?_
      intro q b q' held moved
      rcases step_scheduler moved i with same | ⟨c, stepped⟩
      · rw [same]
        exact held
      · exact stopping_stays (step_move stepped).2 held.1 held.2
    exact kept.2

/-- The scheduler of a pool of one. -/
def solo : Fin 1 := Fin.last 0

/-- One worker, which has got past its store when `stop_all()` is called. -/
def timelyStop : Pool 1 :=
  after step (start 1 4 false)
    [.start, .main, .main, .scheduler solo .next, .scheduler solo .next, .scheduler solo .next, .stopAll]

theorem timely_stop_lasts : ∃ p', step timelyStop .main = some p' ∧
    ∀ more p'', Run step p' more p'' → (p''.schedulers solo).pc ≠ .returned → (p''.schedulers solo).stopping = true := by
  have moved : step timelyStop .main = some (after step timelyStop [.main]) := rfl
  have started : Started timelyStop.main := trivial
  have stops : Stops timelyStop solo .main := rfl
  have stored : Stored (timelyStop.schedulers solo) := ⟨by decide, by decide⟩
  exact ⟨_, moved, (stop_lasts_iff started stops moved).mpr stored⟩

/-- `stop_all()` is called when the new thread has not executed anything of `run()`. -/
def earlyStop : List (Act 1) := [.start, .main, .main, .stopAll]

/-- After the exchange: `stop_all()` writes to the eventfd and returns, the
owner waits, and the worker enters its loop, is woken once and blocks again. -/
def sleepsOn : List (Act 1) :=
  [.main, .main, .wait] ++ List.replicate 10 (.scheduler solo .next) ++ [.scheduler solo (.complete 0 8 0)] ++
    List.replicate 9 (.scheduler solo .next)

theorem early_stop_undone :
    let asked := after step (start 1 4 false) earlyStop
    let stopped := after step asked [.main]
    let asleep := after step stopped sleepsOn
    Run step (start 1 4 false) earlyStop asked ∧ Started asked.main ∧ Stops asked solo .main ∧
      step asked .main = some stopped ∧ (stopped.schedulers solo).stopping = true ∧ Run step stopped sleepsOn asleep ∧
      (asleep.schedulers solo).pc = .waiting ∧ (asleep.schedulers solo).stopping = false ∧
      (asleep.schedulers solo).wakeCount = 0 ∧ (asleep.schedulers solo).ring.cq.isEmpty = true ∧
      asleep.main = .waiting 0 :=
  ⟨run_eq_some rfl, trivial, rfl, rfl, rfl, run_after (by decide), by decide, by decide, by decide, by decide,
    by decide⟩

end CoroNet.SchedulerPool
