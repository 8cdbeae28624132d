import CoroNet.ThreadPool.Stop
import Mathlib.Data.List.FinRange
import Mathlib.Data.List.Nodup
import Mathlib.Data.List.Perm.Basic

namespace CoroNet.CoroThreadPool

open Function Transition

/-- The constructor makes at least one worker. -/
def targetThreads (threads : Nat) : Nat := if threads = 0 then 1 else threads

variable {n : Nat} {w w' : World n} {a : Act n}

/-- The task a step enqueues. -/
def Act.pushed : Act n → List Nat
  | .push task => [task]
  | _ => []

/-- The tasks enqueued by a schedule, in order. -/
def pushes (acts : List (Act n)) : List Nat := acts.flatMap Act.pushed

def Worker.task? : Worker → Option Nat
  | .running task => some task
  | _ => none

/-- The tasks that are being run. -/
def World.inWork (w : World n) : List Nat := (List.finRange n).filterMap fun i => (w.workers i).task?

/-- One value of a function on a list of distinct arguments changes from none. -/
theorem filterMap_update {α : Type*} {f : Fin n → Option α} {i : Fin n} {x : α} (free : f i = none) :
    ((List.finRange n).filterMap (update f i (some x))).Perm (x :: (List.finRange n).filterMap f) := by
  obtain ⟨front, back, split⟩ := List.append_of_mem (List.mem_finRange i)
  have nodup := List.nodup_finRange n
  rw [split] at nodup ⊢
  have apart : ∀ j ∈ front ++ back, update f i (some x) j = f j := by
    intro j member
    refine update_of_ne ?_ ..
    rintro rfl
    exact (List.nodup_middle.mp nodup |> List.nodup_cons.mp).1 member
  rw [List.filterMap_append, List.filterMap_append, List.filterMap_cons_none free,
    List.filterMap_cons_some (update_self i (some x) f)]
  rw [List.filterMap_congr fun j member => apart j (List.mem_append_left _ member),
    List.filterMap_congr fun j member => apart j (List.mem_append_right _ member)]
  exact List.perm_middle

theorem World.set_self {i : Fin n} {worker : Worker} : (w.set i worker).workers i = worker := update_self ..

theorem World.set_other {i j : Fin n} {worker : Worker} (other : j ≠ i) :
    (w.set i worker).workers j = w.workers j := update_of_ne other ..

theorem World.inWork_set {i : Fin n} {worker : Worker} :
    (w.set i worker).inWork = (List.finRange n).filterMap (update (fun j => (w.workers j).task?) i worker.task?) := by
  unfold World.inWork
  refine List.filterMap_congr fun j _ => ?_
  by_cases same : j = i
  · rw [same, World.set_self, update_self]
  · rw [World.set_other same, update_of_ne same]

/-- A worker that runs no task goes to a place where it runs none. -/
theorem World.inWork_idle {i : Fin n} {worker : Worker} (before : (w.workers i).task? = none)
    (after : worker.task? = none) : (w.set i worker).inWork = w.inWork := by
  rw [World.inWork_set, after, ← before, update_eq_self]
  rfl

theorem World.inWork_take {i : Fin n} {task : Nat} (before : (w.workers i).task? = none) :
    (w.set i (.running task)).inWork.Perm (task :: w.inWork) := by
  rw [World.inWork_set]
  exact filterMap_update before

theorem World.inWork_finish {i : Fin n} {task : Nat} (before : w.workers i = .running task) :
    w.inWork.Perm (task :: (w.set i .top).inWork) := by
  have same : (w.set i .top).set i (.running task) = w := by
    simp [World.set, ← before]
  have taken : ((w.set i .top).set i (.running task)).inWork.Perm (task :: (w.set i .top).inWork) :=
    World.inWork_take (by simp [World.set, Worker.task?])
  rwa [same] at taken

/-- The tasks enqueued are those taken, in this order, and then the queue; the
tasks taken are those run and those being run. -/
def Served (w : World n) (pushed : List Nat) : Prop :=
  ∃ taken, pushed = taken ++ w.queue ∧ taken.Perm (w.done ++ w.inWork)

/-- A step that enqueues nothing, takes nothing and finishes nothing. -/
theorem Served.idle {pushed : List Nat} (served : Served w pushed) (nothing : a.pushed = []) (queue : w'.queue = w.queue)
    (done : w'.done = w.done) (inWork : w'.inWork = w.inWork) : Served w' (pushed ++ a.pushed) := by
  obtain ⟨taken, order, run⟩ := served
  exact ⟨taken, by rw [nothing, List.append_nil, order, queue], by rwa [done, inWork]⟩

theorem World.inWork_wakeAll : w.wakeAll.inWork = w.inWork := by
  unfold World.inWork
  refine List.filterMap_congr fun i _ => ?_
  by_cases asleep : w.workers i = .blocked
  · simp [World.wakeAll, asleep, Worker.task?]
  · simp [World.wakeAll, asleep]

theorem Move.served {pushed : List Nat} (move : Move w a w') (served : Served w pushed) :
    Served w' (pushed ++ a.pushed) := by
  cases move with
  | acquire here =>
    refine served.idle rfl rfl rfl (World.inWork_idle ?_ rfl)
    rcases here with here | here <;> rw [here] <;> rfl
  | pass here | commit here | block here | spurious here | exit here =>
    exact served.idle rfl rfl rfl (World.inWork_idle (by rw [here]; rfl) rfl)
  | wake _ here => exact served.idle rfl rfl rfl (World.inWork_idle (by rw [here]; rfl) rfl)
  | takeFault | wakeNone | store | join => exact served.idle rfl rfl rfl rfl
  | notifyAll => exact served.idle rfl rfl rfl World.inWork_wakeAll
  | @take i task rest here queue =>
    obtain ⟨taken, order, run⟩ := served
    have nothing : Act.pushed (.take i) = [] := rfl
    have more : (w.set i (.running task)).inWork.Perm (task :: w.inWork) := World.inWork_take (by rw [here]; rfl)
    refine ⟨taken ++ [task], ?_, ?_⟩
    · rw [nothing, List.append_nil, order, queue, List.append_assoc]
      rfl
    · have placed : (taken ++ [task]).Perm (w.done ++ (task :: w.inWork)) := by
        refine (run.append_right [task]).trans ?_
        rw [List.append_assoc]
        exact (List.perm_append_singleton task w.inWork).append_left _
      exact placed.trans (more.symm.append_left _)
  | @finish i task threw here =>
    obtain ⟨taken, order, run⟩ := served
    have nothing : Act.pushed (.finish i threw) = [] := rfl
    refine ⟨taken, by rw [nothing, List.append_nil, order]; rfl, ?_⟩
    have placed : taken.Perm (w.done ++ (task :: (w.set i .top).inWork)) :=
      run.trans ((World.inWork_finish here).append_left _)
    have same : w.done ++ (task :: (w.set i .top).inWork) = (w.done ++ [task]) ++ (w.set i .top).inWork := by simp
    rw [same] at placed
    exact placed
  | push =>
    obtain ⟨taken, order, run⟩ := served
    exact ⟨taken, by rw [order, List.append_assoc]; rfl, run⟩

theorem run_served {acts : List (Act n)} (reach : Run step (start n) acts w) : Served w (pushes acts) := by
  induction reach with
  | start =>
    refine ⟨[], rfl, ?_⟩
    have nobody : (start n).inWork = [] := List.filterMap_eq_nil_iff.mpr fun _ _ => rfl
    rw [nobody]
    exact List.Perm.nil
  | @next before _ _ a _ _ move ih =>
    have more : pushes (before ++ [a]) = pushes before ++ a.pushed := by simp [pushes]
    rw [more]
    exact (step_move move).served ih

/-- Until `stop` begins no worker has left, and a task in the queue has a
worker that is awake or a notification on its way. -/
structure Attended (w : World n) : Prop where
  running : w.stop = .ready → w.stopping = false
  present : w.stopping = false → ∀ i, w.workers i ≠ .exited
  attended : w.stop = .ready → w.queue ≠ [] → w.owing ≠ 0 ∨ ∃ i, ¬ Sleeping (w.workers i)

theorem Attended.start : Attended (start n) where
  running _ := rfl
  present _ _ := nofun
  attended _ some_task := absurd rfl some_task

theorem World.set_present {i : Fin n} {worker : Worker} (present : ∀ j, w.workers j ≠ .exited)
    (stays : worker ≠ .exited) (j : Fin n) : (w.set i worker).workers j ≠ .exited := by
  by_cases same : j = i
  · rwa [same, World.set_self]
  · rw [World.set_other same]
    exact present j

/-- A worker moves to a place where it is awake. -/
theorem Attended.rouse (attended : Attended w) {i : Fin n} {worker : Worker} (stays : worker ≠ .exited)
    (awake : ¬ Sleeping worker) (stop : w'.stop = w.stop) (stopping : w'.stopping = w.stopping)
    (workers : w'.workers = (w.set i worker).workers) : Attended w' := by
  refine ⟨fun early => ?_, fun up j => ?_, fun _ _ => Or.inr ⟨i, ?_⟩⟩
  · rw [stopping]
    exact attended.running (stop ▸ early)
  · rw [workers]
    exact World.set_present (attended.present (stopping ▸ up)) stays j
  · rwa [workers, World.set_self]

theorem Move.attended (move : Move w a w') (positive : 0 < n) (exclusive : Exclusive w) (attended : Attended w) :
    Attended w' := by
  cases move with
  | acquire | pass | spurious | take | finish | wake =>
    exact attended.rouse (by simp) (by simp [Sleeping]) rfl rfl rfl
  | @commit i _ unready =>
    simp only [World.ready, Bool.or_eq_false_iff, Bool.not_eq_false', List.isEmpty_iff] at unready
    refine ⟨attended.running, fun up => ?_, fun _ some_task => absurd unready.1 some_task⟩
    exact World.set_present (attended.present up) (by simp)
  | @block i here =>
    refine ⟨attended.running, fun up => ?_, fun _ some_task => absurd (exclusive.committed i here) some_task⟩
    exact World.set_present (attended.present up) (by simp)
  | exit _ up empty =>
    refine ⟨fun early => ?_, fun down => absurd (up.symm.trans down) (by decide), fun _ some_task => absurd empty some_task⟩
    exact absurd (up.symm.trans (attended.running early)) (by decide)
  | takeFault => exact ⟨attended.running, attended.present, attended.attended⟩
  | push => exact ⟨attended.running, attended.present, fun _ _ => Or.inl (Nat.succ_ne_zero _)⟩
  | wakeNone _ nobody =>
    refine ⟨attended.running, attended.present, fun early some_task => Or.inr ⟨⟨0, positive⟩, ?_⟩⟩
    rintro (asleep | commits)
    · exact nobody _ asleep
    · exact some_task (exclusive.committed _ commits)
  | store =>
    have late : Stop.stored ≠ .ready := by decide
    exact ⟨fun early => absurd early late, fun down => absurd down.symm Bool.false_ne_true,
      fun early => absurd early late⟩
  | notifyAll stored =>
    have late : Stop.notified ≠ .ready := by decide
    refine ⟨fun early => absurd early late, fun up i => ?_, fun early => absurd early late⟩
    by_cases asleep : w.workers i = .blocked
    · simp [World.wakeAll, asleep]
    · simpa [World.wakeAll, asleep] using attended.present up i
  | join =>
    have late : Stop.joined ≠ .ready := by decide
    exact ⟨fun early => absurd early late, attended.present, fun early => absurd early late⟩

/-- Once a worker has left, the queue holds only what was enqueued since a
moment at which none had. -/
theorem Move.leftover (move : Move w a w') {pushed : List Nat}
    (few : ∀ i, w.workers i = .exited → w.queue.length ≤ pushed.length) {i : Fin n}
    (left : w'.workers i = .exited) : w'.queue.length ≤ (pushed ++ a.pushed).length := by
  have stays : ∀ {j : Fin n} {worker : Worker}, worker ≠ .exited → (w.set j worker).workers i = .exited →
      w.workers i = .exited := by
    intro j worker moves left
    by_cases same : i = j
    · rw [same, World.set_self] at left
      exact absurd left moves
    · rwa [World.set_other same] at left
  rw [List.length_append]
  cases move with
  | acquire | pass | commit | block | spurious | finish | wake =>
    exact Nat.le_add_right_of_le (few i (stays (by simp) left))
  | exit _ _ empty => simp [empty, World.set]
  | take _ queue =>
    have before := few i (stays (by simp) left)
    rw [queue, List.length_cons] at before
    simp only
    omega
  | push =>
    have before := few i left
    simp only [List.length_append, List.length_singleton, Act.pushed]
    omega
  | notifyAll =>
    refine Nat.le_add_right_of_le (few i ?_)
    by_cases asleep : w.workers i = .blocked
    · simp [World.wakeAll, asleep] at left
    · simpa [World.wakeAll, asleep] using left
  | takeFault | wakeNone | store | join => exact Nat.le_add_right_of_le (few i left)

theorem run_leftover {acts : List (Act n)} {early : World n} (reach : Run step early acts w)
    (nobody : ∀ i, early.workers i ≠ .exited) :
    ∀ i, w.workers i = .exited → w.queue.length ≤ (pushes acts).length := by
  induction reach with
  | start => exact fun i left => absurd left (nobody i)
  | @next before _ _ a _ _ move ih =>
    have more : pushes (before ++ [a]) = pushes before ++ a.pushed := by simp [pushes]
    rw [more]
    exact fun i left => (step_move move).leftover ih left

theorem run_attended {acts : List (Act n)} (positive : 0 < n) (reach : Run step (start n) acts w) : Attended w := by
  have both : Exclusive w ∧ Attended w :=
    reach.invariant (P := fun w => Exclusive w ∧ Attended w) ⟨.start, .start⟩ fun held move =>
      ⟨(step_move move).exclusive held.1, (step_move move).attended positive held.1 held.2⟩
  exact both.2

theorem targetThreads_pos (threads : Nat) : 0 < targetThreads threads := by
  unfold targetThreads
  split <;> omega

/-- With all workers gone, the tasks run are all those enqueued before `stop`
began and some enqueued later, and the queue holds the rest of these. -/
theorem all_served {early : World n} {first second : List (Act n)} (positive : 0 < n)
    (before : Run step (start n) first early) (not_stopped : early.stop = .ready) (after : Run step early second w)
    (gone : ∀ i, w.workers i = .exited) :
    ∃ late, pushes second = late ++ w.queue ∧ (pushes first ++ late).Perm w.done := by
  have attended := run_attended positive before
  have few := run_leftover after (attended.present (attended.running not_stopped)) ⟨0, positive⟩ (gone _)
  obtain ⟨taken, order, run⟩ := run_served (before.trans after)
  have together : pushes (first ++ second) = pushes first ++ pushes second := by simp [pushes]
  have nobody : w.inWork = [] := List.filterMap_eq_nil_iff.mpr fun i _ => by rw [gone i]; rfl
  rw [nobody, List.append_nil] at run
  rw [together] at order
  obtain ⟨late, rfl, rest⟩ : ∃ late, taken = pushes first ++ late ∧ pushes second = late ++ w.queue := by
    rcases List.append_eq_append_iff.mp order with ⟨late, same, rest⟩ | ⟨short, same, rest⟩
    · exact ⟨late, same, rest⟩
    · have lengths := congrArg List.length rest
      rw [List.length_append] at lengths
      have none_short : short = [] := List.eq_nil_of_length_eq_zero (by omega)
      subst none_short
      exact ⟨[], by simpa using same.symm, by simpa using rest.symm⟩
  exact ⟨late, rest, run⟩

/-- Tasks leave the queue in the order in which they were enqueued, none is run
twice, none is forgotten while the pool runs, and those enqueued before `stop`
have all been run when the workers are gone. -/
theorem tasks_run_exactly_once (threads : Nat) {acts : List (Act (targetThreads threads))}
    {w : World (targetThreads threads)} (reach : Run step (start (targetThreads threads)) acts w)
    (distinct : (pushes acts).Nodup) :
    (∃ taken, pushes acts = taken ++ w.queue ∧ taken.Perm (w.done ++ w.inWork)) ∧ (w.done ++ w.inWork).Nodup ∧
      (w.stop = .ready → ¬ (w.queue ≠ [] ∧ (∀ i, Sleeping (w.workers i)) ∧ w.owing = 0)) ∧
      ∀ first second early, acts = first ++ second → Run step (start (targetThreads threads)) first early →
        early.stop = .ready → Run step early second w → (∀ i, w.workers i = .exited) →
          ∀ task ∈ pushes first, w.done.count task = 1 ∧ task ∉ w.queue := by
  have positive := targetThreads_pos threads
  have served := run_served reach
  refine ⟨served, ?_, fun not_stopped => ?_, ?_⟩
  · obtain ⟨taken, order, run⟩ := served
    rw [order] at distinct
    exact run.nodup_iff.mp distinct.of_append_left
  · rintro ⟨some_task, asleep, none_owing⟩
    rcases (run_attended positive reach).attended not_stopped some_task with owing | ⟨i, awake⟩
    · exact owing none_owing
    · exact awake (asleep i)
  · rintro first second early rfl before not_stopped after gone task enqueued
    obtain ⟨late, rest, run⟩ := all_served positive before not_stopped after gone
    have together : pushes (first ++ second) = pushes first ++ pushes second := by simp [pushes]
    rw [together, rest, ← List.append_assoc] at distinct
    have member : task ∈ pushes first ++ late := List.mem_append_left _ enqueued
    refine ⟨?_, fun waiting => ?_⟩
    · rw [← run.count_eq]
      exact List.count_eq_one_of_mem distinct.of_append_left member
    · exact (List.nodup_append.mp distinct).2.2 task member task waiting rfl

/-- The workers of a pool of two. -/
def front : Fin 2 := (Fin.last 0).castSucc

def back : Fin 2 := Fin.last 1

/-- Two workers and two tasks, of which one throws. -/
def beforeStop : List (Act 2) :=
  [.acquire front, .test front, .block front, .push 7, .push 8, .notifyOne (some front), .notifyOne none,
    .acquire back, .test back, .take back, .acquire front, .test front, .take front]

/-- Another task comes after the store and is run as well. -/
def duringStop : List (Act 2) :=
  [.store, .push 9, .notifyOne none, .finish back true, .notifyAll, .acquire back, .test back, .take back,
    .finish back false, .finish front false, .acquire front, .test front, .take front, .acquire back, .test back,
    .take back, .join]

def stoppedPool : World 2 := after step (start 2) (beforeStop ++ duringStop)

theorem stopped_pool_has_run : stoppedPool.done = [7, 9, 8] ∧ stoppedPool.stop = .joined ∧
    ∀ task ∈ [7, 8], stoppedPool.done.count task = 1 ∧ task ∉ stoppedPool.queue := by
  have early : Run step (start 2) beforeStop (after step (start 2) beforeStop) := run_eq_some rfl
  have late : Run step (after step (start 2) beforeStop) duringStop stoppedPool := run_eq_some rfl
  have law := tasks_run_exactly_once 2 (early.trans late) (by decide)
  exact ⟨rfl, rfl, law.2.2.2 _ _ _ rfl early rfl late (by decide)⟩

end CoroNet.CoroThreadPool
