import CoroNet.Scheduler.Resumption

namespace CoroNet.Scheduler

open Transition

variable {w w' : World} {a : Act}

/-- Past the loop, by its condition or by the test after `ready_`. -/
def Pc.exited : Pc → Bool
  | .leaving | .returned => true
  | _ => false

/-- The step puts a handle into `ready_` from a batch of completions: it is the
`on_complete` of a coroutine that is not at its end, or a post of a timer callback. -/
def World.readies (w : World) : Act → Bool
  | .next =>
    match w.pc with
    | .batch i n =>
      decide (i < n) && w.ring.cq[i]?.any fun cqe =>
        match cqe.userData with
        | .awaiter b => (w.awaiters b).any fun awaiter => w.resumable (some awaiter.handle)
        | _ => false
    | _ => false
  | .selfPost _ =>
    match w.pc with
    | .inTimer .. => true
    | _ => false
  | _ => false

/-- A scheduler, and whether a batch has put handles into `ready_` since the
worker went past the condition of its loop. -/
structure Observed where
  world : World
  owing : Bool := false

namespace Observed

def step (o : Observed) (a : Act) : Option Observed :=
  (Scheduler.step o.world a).map fun w =>
    { world := w, owing := (o.owing || o.world.readies a) && decide (w.pc ≠ .draining) }

/-- `stop()` does not come between a batch that makes coroutines ready and the
worker that goes back for them, and with `stopping_` set no batch makes any ready. -/
def timely (o : Observed) : Act → Bool
  | .stop _ | .selfStop => !o.owing
  | a => !(o.world.stopping && o.world.readies a)

end Observed

theorem World.userCode_inside (user : w.userCode = true) : w.pc.exited = false ∧ w.pc ≠ .check := by
  unfold World.userCode at user
  cases here : w.pc <;> simp_all [Pc.exited]

/-- What a step past the loop has come from. -/
theorem Move.exits (move : Move w a w') (out : w'.pc.exited = true) : w'.readyQueue = w.readyQueue ∧
    (w.pc.exited = true ∨ a = .next ∧ (w.pc = .loop ∨ w.pc = .check) ∧ w.stopping = true) := by
  cases move with
  | goto goto =>
    cases goto with
    | leaveLoop here up => exact ⟨rfl, Or.inr ⟨rfl, Or.inl here, up⟩⟩
    | leaveCheck here up => exact ⟨rfl, Or.inr ⟨rfl, Or.inr here, up⟩⟩
    | «return» here => exact ⟨rfl, Or.inl (by rw [here]; rfl)⟩
    | _ => cases out
  | rearm rearms | rearmFull rearms => cases rearms <;> cases out
  | store | drain | runTask | resumeIo | resumeParked | submit | null | timers | completion | completionFreed
    | advance => cases out
  | skip here | resumeFreed here | resumeBad here =>
    simp only [here] at out
    cases out
  | spawn user | suspend user | suspendNull user | park user | finish user | selfPost user | selfStop user
    | selfStopFull user | selfStopAgain user =>
    exact absurd out (by simp [World.suspendOn, (World.userCode_inside user).1])
  | beyond here =>
    rw [here] at out
    cases out
  | _ => exact ⟨rfl, Or.inl out⟩

theorem Goto.stays {pc : Pc} (goto : Goto w a pc) (out : w.pc.exited = true) : pc.exited = true := by
  cases goto with
  | «return» => rfl
  | enter here | goOn here | leaveLoop here | tasksDone here | readyDone here | leaveCheck here | goSubmit here
    | wakeUp here | interrupt here | fail here | retTask _ here | retCoro _ here | raise _ here =>
    rw [here] at out
    cases out

theorem Rearms.inside {watcher : UserData} {pc : Pc} (rearms : Rearms w a watcher pc) : w.pc.exited = false := by
  cases rearms with
  | watch here | startTimers here | eventfd here | timerError here | timersRun _ here =>
    rw [here]
    rfl

/-- The worker does not come back to the loop. -/
theorem Move.stays (move : Move w a w') (out : w.pc.exited = true) : w'.pc.exited = true := by
  cases move with
  | goto goto => exact goto.stays out
  | rearm rearms | rearmFull rearms => exact absurd out (by simp [rearms.inside])
  | store here | drain here | runTask here | resumeIo here | resumeParked here | submit here | null here | timers here
    | completion here | completionFreed here | advance here =>
    rw [here] at out
    cases out
  | _ => exact out

/-- With `stopping_` set the worker leaves the loop where it tests it. -/
theorem leaves (moved : step w .next = some w') (here : w.pc = .loop ∨ w.pc = .check) (up : w.stopping = true) :
    w' = { w with pc := .leaving } := by
  obtain ⟨_, moved⟩ := Option.ite_none_left_eq_some.mp moved
  have next : w.next = some { w with pc := .leaving } := by
    rcases here with here | here <;> simp [World.next, here, up]
  exact (Option.some.inj (next.symm.trans moved)).symm

/-- Where the worker goes through `cross_` and `ready_`. -/
def Pc.resuming : Pc → Bool
  | .draining | .tasks _ | .inTask _ | .ready | .inCoro => true
  | _ => false

/-- From a batch on to the condition of the loop, and past the loop. -/
def Pc.behind : Pc → Bool
  | .batch .. | .inTimer .. | .loop | .leaving | .returned => true
  | _ => false

theorem World.userCode_resuming (user : w.userCode = true) : w.pc.resuming = true ∨ ∃ i n, w.pc = .inTimer i n := by
  unfold World.userCode at user
  cases here : w.pc <;> simp_all [Pc.resuming]

/-- The loop over `ready_` is left when that is empty. -/
theorem Move.from_resuming (move : Move w a w') (here : w.pc.resuming = true) :
    w.readies a = false ∧ (w'.pc.resuming = true ∨ w'.pc = .threw ∨ w'.pc.behind = false ∧ w'.readyQueue = []) := by
  have quiet : w.readies a = false := by
    cases a with
    | next | selfPost => cases pc : w.pc <;> simp_all [World.readies, Pc.resuming]
    | _ => rfl
  refine ⟨quiet, ?_⟩
  cases move with
  | goto goto => cases goto <;> simp_all [Pc.resuming, Pc.behind]
  | rearm rearms | rearmFull rearms => cases rearms <;> simp_all [Pc.resuming]
  | _ => simp_all [Pc.resuming, World.drain, World.handOut, World.suspendOn]

/-- Elsewhere nothing is taken from `ready_`, and only a batch puts handles there. -/
theorem Move.from_other (move : Move w a w') (here : w.pc.resuming = false) :
    w'.pc = .threw ∧ w.pc.behind = false ∧ w.readies a = false ∨
    w.pc = .loop ∧ w.stopping = false ∧ w'.pc = .draining ∨
    w'.pc.resuming = false ∧ w'.pc ≠ .threw ∧ w.pc ≠ .threw ∧
      (w.pc.behind = true ∨ w.readies a = true → w'.pc.behind = true) ∧
      (if w.readies a then w'.readyQueue ≠ [] else w'.readyQueue = w.readyQueue) := by
  cases move with
  | goto goto => cases goto <;> simp_all [Pc.resuming, Pc.behind, World.readies]
  | rearm rearms | rearmFull rearms => cases rearms <;> simp_all [Pc.resuming, Pc.behind, World.readies]
  | spawn user | suspend user | suspendNull user | park user | finish user | selfPost user | selfStop user
    | selfStopFull user | selfStopAgain user =>
    rcases World.userCode_resuming user with inside | ⟨i, n, timer⟩
    · exact absurd (inside.symm.trans here) (by simp)
    · simp_all [Pc.resuming, Pc.behind, World.readies, World.suspendOn]
  | @completion i n b cqe awaiter before within at_i data waiting =>
    refine Or.inr (Or.inr ⟨rfl, by simp, by simp [before], fun _ => rfl, ?_⟩)
    cases live : w.resumable (some awaiter.handle) <;> simp [World.readies, before, within, at_i, data, waiting, live]
  | @advance i n before ended =>
    refine Or.inr (Or.inr ⟨rfl, by simp, by simp [before], fun _ => rfl, ?_⟩)
    simp [World.readies, before, Nat.not_lt.mpr ended]
  | post | postTask | stop | stopAgain | wake | consume | wakeRead | ioDone | otherDone =>
    by_cases threw : w.pc = .threw
    · exact Or.inl ⟨threw, by rw [threw]; rfl, rfl⟩
    · exact Or.inr (Or.inr ⟨here, threw, threw, fun some => some.resolve_right (by simp [World.readies]), rfl⟩)
  | _ => simp_all [Pc.resuming, Pc.behind, World.readies]

/-- `stopping_` is set by `stop()` alone, and reset before the loop. -/
theorem Move.stops (move : Move w a w') :
    w'.stopping = w.stopping ∨ (a = .selfStop ∨ ∃ t, a = .stop t) ∧ w'.stopping = true ∨
      w.pc = .entered ∧ w'.stopping = false := by
  cases move with
  | store here => exact Or.inr (Or.inr ⟨here, rfl⟩)
  | selfStop | selfStopFull => exact Or.inr (Or.inl ⟨Or.inl rfl, rfl⟩)
  | stop => exact Or.inr (Or.inl ⟨Or.inr ⟨_, rfl⟩, rfl⟩)
  | _ => exact Or.inl rfl

theorem Move.stop_sets (move : Move w a w') (stop : a = .selfStop ∨ ∃ t, a = .stop t) :
    w'.stopping = true ∧ w'.pc = w.pc := by
  cases move with
  | selfStop | selfStopFull | stop => exact ⟨rfl, rfl⟩
  | selfStopAgain _ up | stopAgain _ up => exact ⟨up, rfl⟩
  | goto goto => cases goto <;> simp at stop
  | rearm rearms | rearmFull rearms => cases rearms <;> simp at stop
  | _ => simp at stop

namespace Observed

variable {o o' : Observed}

theorem step_cases (moved : o.step a = some o') : Move o.world a o'.world ∧
    o'.owing = ((o.owing || o.world.readies a) && decide (o'.world.pc ≠ .draining)) := by
  obtain ⟨w, done, rfl⟩ := Option.map_eq_some_iff.mp moved
  exact ⟨(step_move done).2, rfl⟩

/-- What is owed is in `ready_`; and past the loop `stopping_` is set. -/
structure Tracks (o : Observed) : Prop where
  behind : o.owing = true → o.world.pc.behind = true
  ready : o.world.pc.resuming = false → o.world.pc ≠ .threw → (o.owing = true ↔ o.world.readyQueue ≠ [])
  stopped : o.world.pc.exited = true → o.world.stopping = true

theorem Tracks.step (tracks : Tracks o) (moved : o.step a = some o') : Tracks o' := by
  obtain ⟨move, owing⟩ := step_cases moved
  have stopped : o'.world.pc.exited = true → o'.world.stopping = true := by
    intro out
    have before : o.world.stopping = true ∧ o.world.pc ≠ .entered := by
      rcases (move.exits out).2 with before | ⟨_, here | here, up⟩
      · exact ⟨tracks.stopped before, fun here => by simp [here, Pc.exited] at before⟩
      · exact ⟨up, by simp [here]⟩
      · exact ⟨up, by simp [here]⟩
    rcases move.stops with same | ⟨_, up⟩ | ⟨here, _⟩
    · exact same.trans before.1
    · exact up
    · exact absurd here before.2
  by_cases here : o.world.pc.resuming = true
  · -- nothing is owed while the worker is there
    obtain ⟨quiet, after⟩ := move.from_resuming here
    have clear : o.owing = false := by
      refine Bool.eq_false_iff.mpr fun owed => ?_
      have behind := tracks.behind owed
      cases pc : o.world.pc <;> simp_all [Pc.resuming, Pc.behind]
    rw [clear, quiet, Bool.or_self, Bool.false_and] at owing
    refine ⟨fun owed => absurd (owing.symm.trans owed) Bool.false_ne_true, fun outside alive => ?_, stopped⟩
    rcases after with inside | threw | ⟨_, empty⟩
    · exact absurd (inside.symm.trans outside) (by simp)
    · exact absurd threw alive
    · simp [owing, empty]
  · rcases move.from_other (Bool.eq_false_iff.mpr here) with ⟨threw, ahead, quiet⟩ | ⟨_, _, draining⟩ |
      ⟨outside, _, alive, behind, queue⟩
    · have clear : o.owing = false := Bool.eq_false_iff.mpr fun owed => by simp [tracks.behind owed] at ahead
      rw [clear, quiet, Bool.or_self, Bool.false_and] at owing
      exact ⟨fun owed => absurd (owing.symm.trans owed) Bool.false_ne_true, fun _ alive => absurd threw alive, stopped⟩
    · rw [draining, decide_eq_false (by simp), Bool.and_false] at owing
      refine ⟨fun owed => absurd (owing.symm.trans owed) Bool.false_ne_true, fun outside => ?_, stopped⟩
      rw [draining] at outside
      cases outside
    · have onward : o'.world.pc ≠ .draining := fun draining => by simp [draining, Pc.resuming] at outside
      rw [decide_eq_true onward, Bool.and_true] at owing
      refine ⟨fun owed => behind ?_, fun _ _ => ?_, stopped⟩
      · rw [owing, Bool.or_eq_true] at owed
        exact owed.imp_left tracks.behind
      · cases readies : o.world.readies a with
        | true =>
          rw [readies, if_pos rfl] at queue
          simp [owing, readies, queue]
        | false =>
          rw [readies, if_neg Bool.false_ne_true] at queue
          rw [owing, readies, Bool.or_false, queue]
          exact tracks.ready (Bool.eq_false_iff.mpr here) alive

theorem start_tracks (entries : Nat) (sqpoll : Bool) : Tracks ⟨start entries sqpoll, false⟩ :=
  ⟨nofun, fun _ _ => by simp [start], nofun⟩

/-- Nothing is owed once `stopping_` is set. -/
def Even (o : Observed) : Prop := o.world.stopping = true → o.owing = false

theorem Even.step (even : Even o) (met : o.timely a = true) (moved : o.step a = some o') : Even o' := by
  obtain ⟨move, owing⟩ := step_cases moved
  intro up
  have clear : o.owing = false ∧ o.world.readies a = false := by
    rcases move.stops with same | ⟨rfl | ⟨t, rfl⟩, _⟩ | ⟨_, down⟩
    · have before := same.symm.trans up
      refine ⟨even before, ?_⟩
      cases a with
      | stop | selfStop => rfl
      | _ => simpa [timely, before] using met
    · exact ⟨by simpa [timely] using met, rfl⟩
    · exact ⟨by simpa [timely] using met, rfl⟩
    · exact absurd (down.symm.trans up) Bool.false_ne_true
  rw [owing, clear.1, clear.2]
  rfl

/-- The worker is to leave the loop, and owes a look at `ready_`. -/
def Deserting (o : Observed) : Prop := Tracks o ∧ o.world.stopping = true ∧ o.owing = true

/-- The worker does not go back to `ready_`. -/
theorem Tracks.no_return (tracks : Tracks o) (moved : o.step a = some o') (up : o.world.stopping = true)
    (owed : o.owing = true ∨ o.world.readies a = true) : o'.owing = true := by
  obtain ⟨move, owing⟩ := step_cases moved
  have outside : o.world.pc.resuming = false := by
    refine Bool.eq_false_iff.mpr fun inside => ?_
    rcases owed with owed | readies
    · have behind := tracks.behind owed
      cases pc : o.world.pc <;> simp_all [Pc.resuming, Pc.behind]
    · exact Bool.false_ne_true ((move.from_resuming inside).1.symm.trans readies)
  have onward : o'.world.pc ≠ .draining := by
    rcases move.from_other outside with ⟨threw, _⟩ | ⟨_, down, _⟩ | ⟨outside, _⟩
    · simp [threw]
    · exact absurd (down.symm.trans up) Bool.false_ne_true
    · exact fun draining => by simp [draining, Pc.resuming] at outside
  rw [owing, decide_eq_true onward, Bool.and_true, Bool.or_eq_true]
  exact owed

theorem Tracks.stays_stopped (tracks : Tracks o) (moved : o.step a = some o') (up : o.world.stopping = true)
    (owed : o.owing = true ∨ o.world.readies a = true) : Deserting o' := by
  refine ⟨tracks.step moved, ?_, tracks.no_return moved up owed⟩
  rcases (step_cases moved).1.stops with same | ⟨_, up⟩ | ⟨here, _⟩
  · exact same.trans up
  · exact up
  · rcases owed with owed | readies
    · exact absurd (tracks.behind owed) (by simp [here, Pc.behind])
    · cases a <;> simp [World.readies, here] at readies

theorem deserts (tracks : Tracks o) (moved : o.step a = some o') (unmet : ¬ o.timely a = true) : Deserting o' := by
  by_cases stop : a = .selfStop ∨ ∃ t, a = .stop t
  · have owed : o.owing = true := by rcases stop with rfl | ⟨t, rfl⟩ <;> simpa [timely] using unmet
    obtain ⟨move, owing⟩ := step_cases moved
    obtain ⟨up, same⟩ := move.stop_sets stop
    have behind := tracks.behind owed
    have onward : o'.world.pc ≠ .draining := fun draining => by simp [← same, draining, Pc.behind] at behind
    refine ⟨tracks.step moved, up, ?_⟩
    rw [owing, owed, decide_eq_true onward, Bool.true_or, Bool.true_and]
  · have both : o.world.stopping = true ∧ o.world.readies a = true := by
      cases a with
      | selfStop => exact absurd (Or.inl rfl) stop
      | stop t => exact absurd (Or.inr ⟨t, rfl⟩) stop
      | _ => simpa [timely] using unmet
    exact tracks.stays_stopped moved both.1 (Or.inr both.2)

/-- A scheduler runs the same when it is observed. -/
theorem run_observed {s : World} {acts : List Act} (reach : Run Scheduler.step s acts w) :
    ∃ owing, Run step ⟨s, false⟩ acts ⟨w, owing⟩ := by
  have recorded : ∃ o : Observed, Run step ⟨s, false⟩ acts o ∧ o.world = w :=
    Run.observe world reach fun moved => ⟨_, congrArg (Option.map _) moved, rfl⟩
  obtain ⟨⟨_, owing⟩, observed, rfl⟩ := recorded
  exact ⟨owing, observed⟩

end Observed

/-- `run()` returns with `ready_` empty if and only if `stop()` did not come
between a batch that made coroutines ready and the way back to them, and with
`stopping_` set no batch made any ready; and then every result of a completion
that was taken has been handed to its coroutine. -/
theorem exit_finishes_ready_iff {entries : Nat} {sqpoll : Bool} {acts : List Act}
    (reach : Run step (start entries sqpoll) acts w) (returned : w.pc = .returned) :
    (w.readyQueue = [] ↔ ∃ owing, RunWhile Observed.step (fun o a => o.timely a = true) ⟨start entries sqpoll, false⟩
        acts ⟨w, owing⟩) ∧
      (RunWhile step (fun w a => orderly w a = true) (start entries sqpoll) acts w → w.readyQueue = [] →
        w.posted = w.resumed ++ w.cqResults) := by
  have tracks : ∀ owing, Run Observed.step ⟨start entries sqpoll, false⟩ acts ⟨w, owing⟩ → Observed.Tracks ⟨w, owing⟩ :=
    fun owing observed => observed.invariant (Observed.start_tracks entries sqpoll) fun tracks moved => tracks.step moved
  have outside : w.pc.resuming = false ∧ w.pc ≠ .threw := by rw [returned]; exact ⟨rfl, nofun⟩
  refine ⟨⟨fun empty => ?_, fun ⟨owing, good⟩ => ?_⟩, fun good empty => ?_⟩
  · obtain ⟨owing, observed⟩ := Observed.run_observed reach
    refine ⟨owing, (observed.meets_or (P := Observed.Deserting) (fun before moved unmet => ?_)
      fun _ moved ⟨tracks, up, owed⟩ => tracks.stays_stopped moved up (Or.inl owed)).resolve_right ?_⟩
    · have tracks := before.run.invariant (Observed.start_tracks entries sqpoll) fun tracks moved => tracks.step moved
      exact Observed.deserts tracks moved unmet
    · exact fun ⟨tracks, _, owed⟩ => (tracks.ready outside.1 outside.2).mp owed empty
  · have even : Observed.Even ⟨w, owing⟩ := good.invariant (P := Observed.Even) nofun fun even met moved => even.step met moved
    have held := tracks owing good.run
    have settled := even (held.stopped (by rw [returned]; rfl))
    by_contra some_handles
    exact Bool.false_ne_true (settled.symm.trans ((held.ready outside.1 outside.2).mpr some_handles))
  · have order := (resumed_exactly_once good).1.order
    rwa [World.readyResults, empty, List.filterMap_nil, List.append_nil] at order

/-- A coroutine suspends on an awaiter and the worker waits for completions. -/
def waitingActs : List Act :=
  [.queueBootTask 0, .next, .next, .next, .next, .next, .next, .next, .spawn 0, .suspend (.shutdown 5 1), .ret, .next,
    .next, .next, .next]

/-- The coroutine is resumed and stops its scheduler. -/
def finishedActs : List Act :=
  waitingActs ++ [.complete 2 0 0, .next, .next, .next, .next, .next, .next, .next, .selfStop, .finish, .ret, .next,
    .next, .next]

def finishedWorld : World := after step (start 8 false) finishedActs

theorem finished_exit : finishedWorld.pc = .returned ∧ finishedWorld.resumed = [(0, 0)] ∧
    finishedWorld.readyQueue = [] := by
  have reach : Run step (start 8 false) finishedActs finishedWorld := run_eq_some rfl
  have timely : RunWhile Observed.step (fun o a => o.timely a = true) ⟨start 8 false, false⟩ finishedActs
      ⟨finishedWorld, false⟩ := guarded_run (run_eq_some rfl)
  exact ⟨rfl, rfl, (exit_finishes_ready_iff reach rfl).1.mpr ⟨false, timely⟩⟩

/-- A foreign thread stops the scheduler while the worker waits, and the
completion comes. -/
def desertedActs : List Act := waitingActs ++ [.stop 1, .complete 2 0 0, .next, .next, .next, .next, .next]

theorem ready_deserted : ¬ ∀ (entries : Nat) (sqpoll : Bool) (acts : List Act) (w : World),
    Run step (start entries sqpoll) acts w → w.pc = .returned → w.readyQueue = [] := by
  intro claim
  have reach : Run step (start 8 false) desertedActs (after step (start 8 false) desertedActs) := run_eq_some rfl
  cases claim 8 false desertedActs _ reach rfl

end CoroNet.Scheduler
