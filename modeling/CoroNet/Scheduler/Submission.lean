import CoroNet.Scheduler.Moves

namespace CoroNet.Scheduler

open Function Transition

variable {w w' : World} {a : Act} {op : IoAwaiter}

/-- An `await_suspend` has got an SQE, it carries the awaiter's own
`user_data`, and the coroutine is suspended on that awaiter. -/
structure Obtained (w : World) (op : IoAwaiter) (w' : World) : Prop where
  fault : w'.fault = none
  queued : w'.ring.queued = w.ring.queued ++ [⟨op.prep, .awaiter w.suspensions⟩]
  suspended : ∃ c ∈ w.stack, w'.coros c = .suspended w.suspensions ∧
    w'.awaiters w.suspensions = some { op := op, handle := c }

/-- If the step is an `await_suspend`, it obtains an SQE. -/
def Obtains (w : World) (a : Act) : Prop := ∀ op w', a = .suspend op → step w a = some w' → Obtained w op w'

/-- If the step is an `await_suspend`, fewer entries than the ring has are
queued and not consumed. -/
def roomy (w : World) : Act → Bool
  | .suspend _ => decide (w.ring.pending < w.ring.entries)
  | _ => true

theorem obtained_iff (move : step w (.suspend op) = some w') :
    Obtained w op w' ↔ w.ring.pending < w.ring.entries := by
  obtain ⟨alive, moved⟩ := step_move move
  cases moved with
  | goto goto => cases goto
  | rearm rearms => cases rearms
  | rearmFull rearms => cases rearms
  | @suspend _ c rest _ top room =>
    have suspended : c ∈ w.stack := by
      rw [top]
      exact List.mem_cons_self
    exact ⟨fun _ => room, fun _ => ⟨alive, rfl, c, suspended, update_self .., update_self ..⟩⟩
  | suspendNull _ _ full =>
    refine ⟨fun obtained => absurd obtained.fault nofun, fun room => ?_⟩
    omega

theorem obtains_iff (move : step w a = some w') : Obtains w a ↔ roomy w a = true := by
  cases a with
  | suspend op =>
    rw [roomy, decide_eq_true_iff, ← obtained_iff move]
    refine ⟨fun obtains => obtains op w' rfl move, fun obtained op' w'' same move' => ?_⟩
    cases same
    rw [move] at move'
    cases move'
    exact obtained
  | _ => exact ⟨fun _ => rfl, fun _ _ _ same => absurd same (by simp)⟩

/-- A burst: coroutine after coroutine is started and suspends at once. A
bucket of the wheel goes like this, with a shutdown for each connection. -/
def burst : List (Nat × IoAwaiter) → List Act
  | [] => []
  | (c, op) :: rest => .spawn c :: .suspend op :: burst rest

/-- The SQEs a burst fills when the next awaiter is `first`. -/
def sqesOf (first : Nat) : List (Nat × IoAwaiter) → List Sqe
  | [] => []
  | (_, op) :: rest => ⟨op.prep, .awaiter first⟩ :: sqesOf (first + 1) rest

/-- A place in the user code from which a burst can start. -/
structure BurstPoint (w : World) (coros : List (Nat × IoAwaiter)) : Prop where
  alive : w.fault = none
  user : w.userCode = true
  distinct : (coros.map Prod.fst).Nodup
  absent : ∀ p ∈ coros, w.coros p.1 = .absent

/-- A coroutine has been started. -/
def World.spawned (w : World) (c : Nat) : World :=
  { w with coros := update w.coros c .running, stack := c :: w.stack }

/-- It has suspended at once, with room in the queue. -/
def World.shunted (w : World) (c : Nat) (op : IoAwaiter) : World :=
  (w.spawned c).suspendOn (w.ring.push ⟨op.prep, .awaiter w.suspensions⟩) op c w.stack

theorem BurstPoint.step_spawn {c : Nat} {coros : List (Nat × IoAwaiter)}
    (point : BurstPoint w ((c, op) :: coros)) : step w (.spawn c) = some (w.spawned c) := by
  have fresh : w.coros c = .absent := point.absent _ List.mem_cons_self
  simp [step, point.alive, point.user, fresh, World.spawned]

theorem BurstPoint.step_suspend {c : Nat} {coros : List (Nat × IoAwaiter)}
    (point : BurstPoint w ((c, op) :: coros)) :
    step (w.spawned c) (.suspend op) = some ((w.spawned c).awaitSuspend op c w.stack) := by
  have alive : (w.spawned c).fault = none := point.alive
  have user : (w.spawned c).userCode = true := point.user
  have top : (w.spawned c).stack = c :: w.stack := rfl
  simp only [step, alive, user, top, Option.isSome_none, Bool.false_eq_true, if_false, if_true]

theorem BurstPoint.shunted {c : Nat} {coros : List (Nat × IoAwaiter)}
    (point : BurstPoint w ((c, op) :: coros)) : BurstPoint (w.shunted c op) coros := by
  obtain ⟨apart, distinct⟩ := List.nodup_cons.mp point.distinct
  refine ⟨point.alive, point.user, distinct, fun p member => ?_⟩
  have other : p.1 ≠ c := by
    rintro rfl
    exact apart (List.mem_map.mpr ⟨p, member, rfl⟩)
  simp only [World.shunted, World.suspendOn, World.spawned, update_of_ne other]
  exact point.absent p (List.mem_cons_of_mem _ member)

theorem pending_shunted {c : Nat} : (w.shunted c op).ring.pending = w.ring.pending + 1 := by
  simp only [World.shunted, World.suspendOn, Ring.push, Ring.pending, List.length_append, List.length_singleton]
  omega

theorem run_of_fault (broken : w.fault ≠ none) {acts : List Act} (finished : run step w acts = some w') : w' = w := by
  cases acts with
  | nil => exact (Option.some.inj finished).symm
  | cons a rest =>
    have stuck : step w a = none := by
      unfold step
      rw [if_pos (by simpa [Option.isSome_iff_ne_none] using broken)]
    simp only [run, stuck, Option.bind_none, reduceCtorEq] at finished

theorem BurstPoint.run_burst {c : Nat} {coros : List (Nat × IoAwaiter)}
    (point : BurstPoint w ((c, op) :: coros)) :
    run step w (burst ((c, op) :: coros)) = run step ((w.spawned c).awaitSuspend op c w.stack) (burst coros) := by
  simp only [burst, run, point.step_spawn, point.step_suspend, Option.bind_some]

theorem awaitSuspend_room {c : Nat} (room : w.ring.pending < w.ring.entries) :
    (w.spawned c).awaitSuspend op c w.stack = w.shunted c op := by
  have room' : (w.spawned c).ring.pending < (w.spawned c).ring.entries := room
  simp only [World.awaitSuspend, Ring.getSqe_room room']
  rfl

theorem awaitSuspend_full {c : Nat} (full : w.ring.entries ≤ w.ring.pending) :
    (w.spawned c).awaitSuspend op c w.stack = { w.spawned c with fault := some .nullSqe } := by
  have full' : (w.spawned c).ring.entries ≤ (w.spawned c).ring.pending := full
  simp only [World.awaitSuspend, Ring.getSqe_full full']

/-- A burst goes through, each coroutine with its own SQE, if and only if the
queue has room for all of it. -/
theorem burst_obtains_iff {coros : List (Nat × IoAwaiter)} (point : BurstPoint w coros)
    (bound : w.ring.pending ≤ w.ring.entries) :
    (∃ w', run step w (burst coros) = some w' ∧ w'.fault = none ∧
      w'.ring.queued = w.ring.queued ++ sqesOf w.suspensions coros) ↔
      w.ring.pending + coros.length ≤ w.ring.entries := by
  induction coros generalizing w with
  | nil => exact ⟨fun _ => bound, fun _ => ⟨w, rfl, point.alive, (List.append_nil _).symm⟩⟩
  | cons head rest ih =>
    obtain ⟨c, op⟩ := head
    rw [point.run_burst, List.length_cons]
    by_cases room : w.ring.pending < w.ring.entries
    · have bound' : (w.shunted c op).ring.pending ≤ (w.shunted c op).ring.entries := by
        rw [pending_shunted]
        exact room
      have filled : w.ring.queued ++ sqesOf w.suspensions ((c, op) :: rest) =
          (w.shunted c op).ring.queued ++ sqesOf (w.shunted c op).suspensions rest := by
        simp only [World.shunted, World.suspendOn, World.spawned, Ring.push, sqesOf, List.append_assoc, List.singleton_append]
      have entries : (w.shunted c op).ring.entries = w.ring.entries := rfl
      have later := ih point.shunted bound'
      rw [pending_shunted, entries] at later
      rw [awaitSuspend_room room, filled, later]
      omega
    · rw [awaitSuspend_full (by omega)]
      refine ⟨fun ⟨w', finished, alive, _⟩ => ?_, fun fits => ?_⟩
      · have stuck : w' = { w.spawned c with fault := some .nullSqe } := run_of_fault (by simp) finished
        rw [stuck] at alive
        cases alive
      · omega

theorem pending_push {r : Ring} (sqe : Sqe) (room : r.pending < r.entries) :
    (r.push sqe).pending ≤ r.entries := by
  simp only [Ring.push, Ring.pending, List.length_append, List.length_singleton] at room ⊢
  omega

theorem pending_submit {r : Ring} : r.submit.pending ≤ r.pending ∧ r.submit.entries = r.entries := by
  unfold Ring.submit
  split
  · refine ⟨?_, rfl⟩
    simp only [Ring.pending, List.length_append, List.length_nil]
    omega
  · refine ⟨?_, rfl⟩
    simp only [Ring.pending, List.length_nil]
    omega

/-- The queue never holds more than its entries. -/
theorem Move.pending_le (move : Move w a w') (bound : w.ring.pending ≤ w.ring.entries) :
    w'.ring.pending ≤ w'.ring.entries := by
  cases move with
  | rearm _ room | suspend _ _ room => exact pending_push _ room
  | submit =>
    obtain ⟨fewer, entries⟩ := pending_submit (r := w.ring)
    dsimp only
    omega
  | selfStop _ _ room =>
    obtain ⟨fewer, entries⟩ := pending_submit (r := w.ring.push ⟨.nop, .null⟩)
    have pushed := pending_push ⟨.nop, .null⟩ room
    have same : (w.ring.push ⟨.nop, .null⟩).entries = w.ring.entries := rfl
    dsimp only
    omega
  | consume oldest =>
    simp only [Ring.pending, oldest, List.length_cons] at bound ⊢
    omega
  | _ => exact bound

/-- In every run all suspensions obtain their SQEs if and only if each of them
comes while fewer entries than the ring has are queued and not consumed; a
burst of them obtains its SQEs if and only if it fits. -/
theorem suspensions_obtain_iff {entries : Nat} {sqpoll : Bool} {acts : List Act}
    (reach : Run step (start entries sqpoll) acts w) :
    (RunWhile step Obtains (start entries sqpoll) acts w ↔
      RunWhile step (fun w a => roomy w a = true) (start entries sqpoll) acts w) ∧
    ∀ coros, BurstPoint w coros →
      ((∃ w', run step w (burst coros) = some w' ∧ w'.fault = none ∧
        w'.ring.queued = w.ring.queued ++ sqesOf w.suspensions coros) ↔
        w.ring.pending + coros.length ≤ w.ring.entries) := by
  have bound : w.ring.pending ≤ w.ring.entries :=
    reach.invariant (Nat.zero_le _) fun held move => (step_move move).2.pending_le held
  refine ⟨⟨fun obtained => ?_, fun roomy => ?_⟩, fun coros point => burst_obtains_iff point bound⟩
  · exact obtained.weaken fun _ _ _ move => (obtains_iff move).mp
  · exact roomy.weaken fun _ _ _ move => (obtains_iff move).mpr

/-- Before the first submission the two watchers have taken two of the four
entries; a boot task starts two coroutines, each of which shuts a connection down. -/
def twoShutdowns : List Act :=
  [.queueBootTask 0, .next, .next, .next, .next, .next, .next, .next, .spawn 0, .suspend (.shutdown 5 1), .spawn 1,
    .suspend (.shutdown 6 1)]

def crowded : World := after step (start 4 false) twoShutdowns

theorem two_shutdowns_obtain :
    RunWhile step Obtains (start 4 false) twoShutdowns crowded ∧
    ¬ ∃ w', run step crowded (burst [(2, .shutdown 7 1)]) = some w' ∧ w'.fault = none ∧
      w'.ring.queued = crowded.ring.queued ++ sqesOf 2 [(2, .shutdown 7 1)] := by
  have reach : RunWhile step (fun w a => roomy w a = true) (start 4 false) twoShutdowns crowded :=
    guarded_run (run_eq_some rfl)
  have absent : ∀ p ∈ [(2, IoAwaiter.shutdown 7 1)], crowded.coros p.1 = .absent := by
    intro p member
    rw [List.mem_singleton.mp member]
    rfl
  have point : BurstPoint crowded [(2, .shutdown 7 1)] := ⟨rfl, rfl, by simp, absent⟩
  obtain ⟨each, bursts⟩ := suspensions_obtain_iff reach.run
  refine ⟨each.mpr reach, fun fits => ?_⟩
  have room : 4 + 1 ≤ 4 := (bursts _ point).mp fits
  omega

/-- The third of three connections that are shut down together: its
`await_suspend` writes to a null SQE. -/
theorem third_shutdown_null :
    Run step (start 4 false) (twoShutdowns ++ [.spawn 2]) (crowded.spawned 2) ∧
    ∃ w', step (crowded.spawned 2) (.suspend (.shutdown 7 1)) = some w' ∧ w'.fault = some .nullSqe ∧
      ¬ Obtained (crowded.spawned 2) (.shutdown 7 1) w' := by
  refine ⟨run_eq_some rfl, _, rfl, rfl, fun obtained => ?_⟩
  cases obtained.fault

end CoroNet.Scheduler
