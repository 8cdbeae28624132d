import CoroNet.Scheduler.Moves

namespace CoroNet.Scheduler

open Function Transition

/-- The worker is in the second loop of `drain_cross_queue`. -/
def Pc.inTasks : Pc → Bool
  | .tasks _ | .inTask _ => true
  | _ => false

/-- The worker is in the loop over `ready_`. -/
def Pc.inReady : Pc → Bool
  | .ready | .inCoro => true
  | _ => false

/-- The steps of the second loop over a batch of so many tasks, where each
task throws or returns as is given for its place in the batch. -/
def World.serves (size : Nat) (throws : Nat → Bool) (w : World) (a : Act) : Bool :=
  match w.pc, a with
  | .inTask rest, .ret => !throws (size - rest.length - 1)
  | .inTask rest, .raise => throws (size - rest.length - 1)
  | .inTask _, _ | .tasks _, _ => true
  | _, _ => false

/-- The handle has been taken from the front of `ready_`. -/
def World.Turned (w : World) (h : Handle) (acts : List Act) : Prop :=
  ∃ before v after, acts = before ++ Act.next :: after ∧ Run step w before v ∧ v.pc = .ready ∧
    v.readyQueue.head? = some h

/-- What the swap took out of the queues has been served: the tasks ran once
each, the worker goes on, and before it blocks again it takes the handles. -/
structure Served (before after : World) : Prop where
  ran : after.ran = before.ran ++ before.tasks.map Pushed.item
  goesOn : after.pc = .ready
  resumed : ∀ h ∈ (before.handles.map Pushed.item).filter before.resumable, ∀ acts w,
    RunWhile step (fun w _ => w.pc.inReady = true) after acts w → w.pc = .check → after.Turned h acts

variable {w w' u : World} {a : Act} {h : Handle} {acts : List Act} {size : Nat} {throws : Nat → Bool}

/-- In the loop over `ready_` handles are added behind and taken in front. -/
theorem Move.queued (move : Move w a w') (here : w.pc.inReady = true) (queued : h ∈ w.readyQueue) :
    h ∈ w'.readyQueue ∨ a = .next ∧ w.pc = .ready ∧ w.readyQueue.head? = some h := by
  have taken : ∀ {g : Handle} {rest : List Handle}, w.readyQueue = g :: rest →
      h ∈ rest ∨ w.readyQueue.head? = some h := by
    intro g rest front
    rw [front] at queued ⊢
    rcases List.mem_cons.mp queued with rfl | later
    · exact Or.inr rfl
    · exact Or.inl later
  cases move with
  | skip ready front | resumeIo ready front | resumeFreed ready front | resumeParked ready front
    | resumeBad ready front => exact (taken front).imp id fun first => ⟨rfl, ready, first⟩
  | selfPost => exact Or.inl (List.mem_append_left _ queued)
  | drain other | completion other =>
    rw [other] at here
    cases here
  | _ => exact Or.inl queued

/-- Everything a step in the loop over the tasks can be. -/
inductive TaskStep (w : World) : Act → World → Prop
  | done : w.pc = .tasks [] → TaskStep w .next { w with pc := .ready }
  | begin {f : Task} {rest : List Task} : w.pc = .tasks (f :: rest) →
      TaskStep w .next { w with ran := w.ran ++ [f], pc := .inTask rest }
  | ret {rest : List Task} : w.pc = .inTask rest → TaskStep w .ret { w with pc := .tasks rest }
  | raise {rest : List Task} : w.pc = .inTask rest → TaskStep w .raise { w with pc := .threw }
  | other {a : Act} {w' : World} : w'.pc = w.pc → w'.ran = w.ran → w.readyQueue <+: w'.readyQueue → TaskStep w a w'

theorem Goto.taskStep {pc : Pc} (goto : Goto w a pc) (here : w.pc.inTasks = true) :
    TaskStep w a { w with pc := pc } := by
  cases goto with
  | tasksDone at_end => exact .done at_end
  | retTask _ inside => exact .ret inside
  | raise _ inside => exact .raise inside
  | enter other | goOn other | leaveLoop other | readyDone other | leaveCheck other | goSubmit other | wakeUp other
    | interrupt other | fail other | «return» other | retCoro _ other =>
    rw [other] at here
    cases here

theorem Rearms.not_inTasks {watcher : UserData} {pc : Pc} (rearms : Rearms w a watcher pc) :
    w.pc.inTasks = false := by
  cases rearms with
  | watch other | startTimers other | eventfd other | timerError other | timersRun _ other =>
    rw [other]
    rfl

theorem Move.taskStep (move : Move w a w') (here : w.pc.inTasks = true) : TaskStep w a w' := by
  cases move with
  | goto goto => exact goto.taskStep here
  | rearm rearms | rearmFull rearms =>
    rw [rearms.not_inTasks] at here
    cases here
  | runTask begins => exact .begin begins
  | store other | drain other | skip other | resumeIo other | resumeFreed other | resumeParked other | resumeBad other
    | submit other | null other | timers other | completion other | completionFreed other | advance other =>
    rw [other] at here
    cases here
  | selfPost => exact .other rfl rfl (List.prefix_append _ _)
  | _ => exact .other rfl rfl List.prefix_rfl

/-- How far the loop has come: `done` tasks of the batch were begun, and all of
them but the one the worker is in, or threw in, have returned. -/
structure Progress (throws : Nat → Bool) (before w : World) (done rest : List Task) : Prop where
  batch : before.tasks.map Pushed.item = done ++ rest
  ran : w.ran = before.ran ++ done
  queue : before.drain.readyQueue <+: w.readyQueue
  place :
    (w.pc = .tasks rest ∧ ∀ k < done.length, throws k = false) ∨
    (w.pc = .inTask rest ∧ 0 < done.length ∧ ∀ k < done.length - 1, throws k = false) ∨
    (w.pc = .ready ∧ rest = [] ∧ ∀ k < done.length, throws k = false) ∨
    (w.pc = .threw ∧ 0 < done.length ∧ throws (done.length - 1) = true ∧ ∀ k < done.length - 1, throws k = false)

theorem Progress.step {before : World} {done rest : List Task} (progress : Progress throws before w done rest)
    (met : w.serves before.tasks.length throws a = true) (move : Scheduler.step w a = some w') :
    ∃ done' rest', Progress throws before w' done' rest' := by
  obtain ⟨batch, ran, queue, place⟩ := progress
  have size : before.tasks.length = done.length + rest.length := by
    have length := congrArg List.length batch
    rwa [List.length_map, List.length_append] at length
  have here : w.pc.inTasks = true := by
    cases pc : w.pc <;> simp_all [World.serves, Pc.inTasks]
  cases (step_move move).2.taskStep here with
  | done at_end =>
    rcases place with ⟨pc, good⟩ | ⟨pc, -⟩ | ⟨pc, -⟩ | ⟨pc, -⟩
    · cases pc.symm.trans at_end
      exact ⟨done, [], batch, ran, queue, Or.inr (Or.inr (Or.inl ⟨rfl, rfl, good⟩))⟩
    all_goals cases pc.symm.trans at_end
  | @begin f rest' begins =>
    rcases place with ⟨pc, good⟩ | ⟨pc, -⟩ | ⟨pc, -⟩ | ⟨pc, -⟩
    · cases pc.symm.trans begins
      refine ⟨done ++ [f], rest', by simpa using batch, by simp [ran], queue, Or.inr (Or.inl ⟨rfl, by simp, ?_⟩)⟩
      simpa using good
    all_goals cases pc.symm.trans begins
  | ret inside =>
    rcases place with ⟨pc, -⟩ | ⟨pc, begun, good⟩ | ⟨pc, -⟩ | ⟨pc, -⟩
    · cases pc.symm.trans inside
    · cases pc.symm.trans inside
      have returned : throws (done.length - 1) = false := by
        simp only [World.serves, pc, size, Bool.not_eq_true'] at met
        rwa [Nat.add_sub_cancel] at met
      refine ⟨done, rest, batch, ran, queue, Or.inl ⟨rfl, fun k below => ?_⟩⟩
      rcases Nat.lt_or_eq_of_le (Nat.le_sub_one_of_lt below) with earlier | last
      · exact good k earlier
      · rwa [last]
    all_goals cases pc.symm.trans inside
  | raise inside =>
    rcases place with ⟨pc, -⟩ | ⟨pc, begun, good⟩ | ⟨pc, -⟩ | ⟨pc, -⟩
    · cases pc.symm.trans inside
    · cases pc.symm.trans inside
      have thrown : throws (done.length - 1) = true := by
        simp only [World.serves, pc, size] at met
        rwa [Nat.add_sub_cancel] at met
      exact ⟨done, rest, batch, ran, queue, Or.inr (Or.inr (Or.inr ⟨rfl, begun, thrown, good⟩))⟩
    all_goals cases pc.symm.trans inside
  | other pc same more =>
    rw [← pc] at place
    exact ⟨done, rest, batch, same.trans ran, queue.trans more, place⟩

theorem World.userCode_threw (here : w.pc = .threw) : w.userCode = false := by
  rw [World.userCode, here]

/-- The worker that has thrown takes no step any more. -/
theorem Move.threw (move : Move w a w') (here : w.pc = .threw) :
    w'.pc = .threw ∧ w'.ran = w.ran ∧ w'.readyQueue = w.readyQueue := by
  cases move with
  | goto goto =>
    cases goto with
    | enter other | goOn other | leaveLoop other | tasksDone other | readyDone other | leaveCheck other
      | goSubmit other | wakeUp other | interrupt other | fail other | «return» other | retTask _ other
      | retCoro _ other | raise _ other => cases here.symm.trans other
  | rearm rearms | rearmFull rearms =>
    cases rearms with
    | watch other | startTimers other | eventfd other | timerError other | timersRun _ other =>
      cases here.symm.trans other
  | store other | drain other | runTask other | skip other | resumeIo other | resumeFreed other | resumeParked other
    | resumeBad other | submit other | null other | timers other | completion other | completionFreed other
    | beyond other | advance other | queueBootTask other => cases here.symm.trans other
  | spawn user | suspend user | suspendNull user | park user | finish user | selfPost user | selfStop user
    | selfStopFull user | selfStopAgain user =>
    rw [World.userCode_threw here] at user
    cases user
  | _ => exact ⟨here, rfl, rfl⟩

end CoroNet.Scheduler
