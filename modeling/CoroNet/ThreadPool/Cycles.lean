import CoroNet.ThreadPool.Tasks

namespace CoroNet.CoroThreadPool

open Function Transition

variable {n : Nat} {w w' : World n} {tasks : List Nat}

/-- What happens to a pool over its life: its own steps, and calls of `start`. -/
inductive LifeAct (n : Nat)
  | pool (a : Act n)
  | start

/-- A pool that has never been started; tasks may be enqueued already. -/
def unstarted (n : Nat) : World n := { workers := fun _ => .exited, stop := .joined }

/-- `start` of a pool without workers. -/
def World.restart (w : World n) : World n := { w with workers := fun _ => .top, stopping := false, stop := .ready }

/-- `started_` is set from `start` until the join of `stop`. -/
def lifeStep (w : World n) : LifeAct n → Option (World n)
  | .pool a => step w a
  | .start => some (if w.stop = .joined then w.restart else w)

def LifeAct.pushed : LifeAct n → List Nat
  | .pool a => a.pushed
  | .start => []

/-- The tasks enqueued over the life of the pool, in order. -/
def enqueued (acts : List (LifeAct n)) : List Nat := acts.flatMap LifeAct.pushed

/-- What holds at any time in the life of a pool, of which the tasks enqueued are these. -/
structure Living (w : World n) (tasks : List Nat) : Prop where
  exclusive : Exclusive w
  served : Served w tasks
  away : w.stop = .joined → ∀ i, w.workers i = .exited
  attended : w.stop ≠ .joined → Attended w

theorem Living.unstarted : Living (unstarted n) [] where
  exclusive := by
    refine ⟨rfl, ?_, nofun, nofun⟩
    rintro i (other | other | other) <;> cases other
  served := by
    have nobody : (CoroThreadPool.unstarted n).inWork = [] := List.filterMap_eq_nil_iff.mpr fun _ _ => rfl
    exact ⟨[], rfl, by rw [nobody]; exact List.Perm.nil⟩
  away _ _ := rfl
  attended other := absurd rfl other

/-- Workers that have left stay away. -/
theorem Move.away {a : Act n} (move : Move w a w') (away : w.stop = .joined → ∀ i, w.workers i = .exited)
    (joined : w'.stop = .joined) (i : Fin n) : w'.workers i = .exited := by
  cases move with
  | acquire here =>
    rcases here with here | here <;> cases (away joined _).symm.trans here
  | pass here | commit here | block here | spurious here | exit here | take here | finish here =>
    cases (away joined _).symm.trans here
  | wake _ here => cases (away joined _).symm.trans here
  | takeFault | push | wakeNone => exact away joined i
  | store | notifyAll => cases joined
  | join _ out => exact out i

theorem Move.stays_joined {a : Act n} (move : Move w a w') (joined : w.stop = .joined) : w'.stop = .joined := by
  cases move with
  | store early => cases joined.symm.trans early
  | notifyAll stored => cases joined.symm.trans stored
  | join => rfl
  | _ => exact joined

theorem Living.pool {a : Act n} (living : Living w tasks) (positive : 0 < n) (moved : step w a = some w') :
    Living w' (tasks ++ a.pushed) := by
  have move := step_move moved
  refine ⟨move.exclusive living.exclusive, move.served living.served, move.away living.away, fun running => ?_⟩
  exact move.attended positive living.exclusive (living.attended fun joined => running (move.stays_joined joined))

/-- A new generation of workers finds the queue as the last one has left it. -/
theorem Living.restart (living : Living w tasks) (positive : 0 < n) (joined : w.stop = .joined) :
    Living w.restart tasks := by
  have away := living.away joined
  obtain ⟨taken, order, run⟩ := living.served
  refine ⟨⟨living.exclusive.fault, ?_, nofun, nofun⟩, ⟨taken, order, ?_⟩, nofun, fun _ => ⟨fun _ => rfl, fun _ _ => nofun, ?_⟩⟩
  · rintro i (other | other | other) <;> cases other
  · have nobody : w.inWork = [] := List.filterMap_eq_nil_iff.mpr fun i _ => by rw [away i]; rfl
    have nobody' : w.restart.inWork = [] := List.filterMap_eq_nil_iff.mpr fun _ _ => rfl
    rw [nobody] at run
    rwa [nobody']
  · exact fun _ _ => Or.inr ⟨⟨0, positive⟩, by rintro (asleep | asleep) <;> cases asleep⟩

theorem run_living {acts : List (LifeAct n)} (positive : 0 < n) (reach : Run lifeStep (unstarted n) acts w) :
    Living w (enqueued acts) := by
  induction reach with
  | start => exact .unstarted
  | @next before t _ a _ _ move ih =>
    have more : enqueued (before ++ [a]) = enqueued before ++ a.pushed := by simp [enqueued]
    rw [more]
    cases a with
    | pool a => exact ih.pool positive move
    | start =>
      cases Option.some.inj move
      rw [LifeAct.pushed, List.append_nil]
      split
      next joined => exact ih.restart positive joined
      next => exact ih

/-- With the workers of a cycle gone, the tasks run are all those enqueued
before its `stop` began, in this cycle and before it, and some enqueued later. -/
theorem Living.drained {early : World n} {second : List (Act n)} (living : Living early tasks)
    (whole : Living w (tasks ++ pushes second)) (positive : 0 < n) (not_stopped : early.stop = .ready)
    (after : Run step early second w) (joined : w.stop = .joined) :
    ∃ late, pushes second = late ++ w.queue ∧ (tasks ++ late).Perm w.done := by
  have gone := whole.away joined
  have attended := living.attended (by rw [not_stopped]; nofun)
  have few := run_leftover after (attended.present (attended.running not_stopped)) ⟨0, positive⟩ (gone _)
  obtain ⟨taken, order, run⟩ := whole.served
  have nobody : w.inWork = [] := List.filterMap_eq_nil_iff.mpr fun i _ => by rw [gone i]; rfl
  rw [nobody, List.append_nil] at run
  have lengths := congrArg List.length order
  simp only [List.length_append] at lengths
  have begins : tasks <+: taken ++ w.queue := order ▸ List.prefix_append tasks (pushes second)
  obtain ⟨late, rfl⟩ := List.prefix_of_prefix_length_le begins (List.prefix_append taken w.queue) (by omega)
  rw [List.append_assoc] at order
  exact ⟨late, List.append_cancel_left order, run⟩

/-- A pool that is started and stopped any number of times: tasks leave the
queue in the order in which they were enqueued, whatever the workers were
doing, also while there were none; none is run twice or forgotten while the
pool runs; and when a `stop` returns, all that were enqueued before it began,
in its cycle or earlier, have been run. -/
theorem tasks_survive_cycles (threads : Nat) {acts : List (LifeAct (targetThreads threads))}
    {w : World (targetThreads threads)} (reach : Run lifeStep (unstarted (targetThreads threads)) acts w)
    (distinct : (enqueued acts).Nodup) :
    w.fault = false ∧
      (∃ taken, enqueued acts = taken ++ w.queue ∧ taken.Perm (w.done ++ w.inWork)) ∧ (w.done ++ w.inWork).Nodup ∧
      (w.stop = .ready → ¬ (w.queue ≠ [] ∧ (∀ i, Sleeping (w.workers i)) ∧ w.owing = 0)) ∧
      ∀ first second early, acts = first ++ second.map .pool →
        Run lifeStep (unstarted (targetThreads threads)) first early → early.stop = .ready →
          Run step early second w → w.stop = .joined →
            ∀ task ∈ enqueued first, w.done.count task = 1 ∧ task ∉ w.queue := by
  have positive := targetThreads_pos threads
  have living := run_living positive reach
  refine ⟨living.exclusive.fault, living.served, ?_, fun not_stopped => ?_, ?_⟩
  · obtain ⟨taken, order, run⟩ := living.served
    rw [order] at distinct
    exact run.nodup_iff.mp distinct.of_append_left
  · rintro ⟨some_task, asleep, none_owing⟩
    have attended := living.attended (by rw [not_stopped]; nofun)
    rcases attended.attended not_stopped some_task with owing | ⟨i, awake⟩
    · exact owing none_owing
    · exact awake (asleep i)
  · rintro first second early rfl before not_stopped after joined task member
    have together : enqueued (first ++ second.map .pool) = enqueued first ++ pushes second := by
      simp [enqueued, pushes, List.flatMap_map, LifeAct.pushed]
    rw [together] at living distinct
    obtain ⟨late, rest, run⟩ := (run_living positive before).drained living positive not_stopped after joined
    rw [rest, ← List.append_assoc] at distinct
    have inside : task ∈ enqueued first ++ late := List.mem_append_left _ member
    refine ⟨?_, fun waiting => ?_⟩
    · rw [← run.count_eq]
      exact List.count_eq_one_of_mem distinct.of_append_left inside
    · exact (List.nodup_append.mp distinct).2.2 task inside task waiting rfl

/-- A task that comes before the first `start`, and one between the two cycles. -/
def only : Fin 1 := ⟨0, Nat.zero_lt_one⟩

def firstCycle : List (LifeAct 1) :=
  [.pool (.push 5), .start] ++
    ([.acquire only, .test only, .take only, .notifyOne none, .store, .finish only false, .notifyAll, .acquire only,
      .test only, .take only, .join, .push 6] : List (Act 1)).map .pool ++ [.start]

def secondCycle : List (Act 1) :=
  [.notifyOne none, .store, .notifyAll, .acquire only, .test only, .take only, .finish only true, .acquire only,
    .test only, .take only, .join]

theorem task_between_cycles_run :
    (after lifeStep (unstarted 1) (firstCycle ++ secondCycle.map .pool)).done.count 6 = 1 := by
  have first : Run lifeStep (unstarted 1) firstCycle (after lifeStep (unstarted 1) firstCycle) := run_eq_some rfl
  have second : Run step (after lifeStep (unstarted 1) firstCycle) secondCycle
      (after lifeStep (unstarted 1) (firstCycle ++ secondCycle.map .pool)) := run_eq_some rfl
  have whole : Run lifeStep (unstarted 1) (firstCycle ++ secondCycle.map .pool)
      (after lifeStep (unstarted 1) (firstCycle ++ secondCycle.map .pool)) := run_eq_some rfl
  have law := tasks_survive_cycles 0 whole (by decide)
  exact (law.2.2.2.2 firstCycle secondCycle _ rfl first rfl second rfl 6 (by decide)).1

end CoroNet.CoroThreadPool
