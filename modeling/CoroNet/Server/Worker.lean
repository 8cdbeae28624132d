import CoroNet.EventLoop.Embed
import CoroNet.EventLoop.Independence

namespace CoroNet.TcpServer

open Coroutine (Kind)
open EventLoop Transition

/-- The coroutines of a worker: its accept loop, which has made `n` connections
and is about to read `running_` or resumed from an accept, and the handlers. -/
inductive Worker (S : Kind → Type) : Kind → Type
  | test (n : Nat) : Worker S .void
  | accepted (n : Nat) (r : Answer) : Worker S .void
  | handler {k : Kind} (s : S k) : Worker S k

variable {E V A : Type} {S : Kind → Type} {accept : A} {running : Nat → Bool} {handle : Nat → Int → S .void}
  {code : Code E V A S} {w : World E V A (Worker S)} {h h' : Handler E V A (Worker S)} {results : List Int}
  {tasks : List (Worker S .void)} {e : Event A (Worker S)}

/-- `running n` is what the loop reads after `n` connections, and `handle n fd`
what `handler_` returns for connection number `n`, whose descriptor is `fd`. -/
def worker (accept : A) (running : Nat → Bool) (handle : Nat → Int → S .void) (code : Code E V A S) :
    Code E V A (Worker S)
  | _, .test n => if running n then .io accept (.accepted n) else .ret ()
  | _, .accepted n r => if r.res < 0 then .ret () else .spawn (.handler (handle n r.res)) (.test (n + 1))
  | k, .handler s => (code k s).map fun _ => .handler

/-- The handlers of the connections made of these descriptors. -/
def serving (handle : Nat → Int → S .void) (fds : List Int) : List (Worker S .void) :=
  fds.mapIdx fun n fd => .handler (handle n fd)

/-- The results of its operations. -/
def resultsOf (events : List (Event A (Worker S))) : List Int := (exchanges events).map fun x => x.2.res

/-- Where the accept loop is, after these results, having spawned these tasks. -/
inductive LoopStage (accept : A) (running : Nat → Bool) (handle : Nat → Int → S .void) (results : List Int)
    (tasks : List (Worker S .void)) : Handler E V A (Worker S) → Prop
  | test : (∀ res ∈ results, 0 ≤ res) → tasks = serving handle results →
      LoopStage accept running handle results tasks (.exec (.test results.length) .nobody)
  | accept : (∀ res ∈ results, 0 ≤ res) → tasks = serving handle results →
      LoopStage accept running handle results tasks (.blocked accept (.accepted results.length) .nobody)
  | accepted {before : List Int} {r : Answer} : results = before ++ [r.res] → (∀ res ∈ before, 0 ≤ res) →
      tasks = serving handle before →
      LoopStage accept running handle results tasks (.exec (.accepted before.length r) .nobody)
  | stopped : (∀ res ∈ results, 0 ≤ res) → tasks = serving handle results → running results.length = false →
      LoopStage accept running handle results tasks (.ended (.ok ()))
  | failed {before : List Int} {res : Int} : results = before ++ [res] → (∀ res ∈ before, 0 ≤ res) → res < 0 →
      tasks = serving handle before → LoopStage accept running handle results tasks (.ended (.ok ()))

theorem serving_concat (handle : Nat → Int → S .void) (fds : List Int) (fd : Int) :
    serving handle (fds ++ [fd]) = serving handle fds ++ [.handler (handle fds.length fd)] :=
  List.mapIdx_concat

theorem serving_append (handle : Nat → Int → S .void) (fds more : List Int) :
    serving handle fds <+: serving handle (fds ++ more) := by
  unfold serving
  rw [List.mapIdx_append]
  exact List.prefix_append _ _

theorem LoopStage.move (stage : LoopStage accept running handle results tasks h)
    (moves : h.next (worker accept running handle code) = some (e, h')) :
    LoopStage accept running handle results (tasks ++ spawns [e]) h' := by
  cases stage with
  | test succeeded served =>
    by_cases reads : running results.length = true
    · simp only [Handler.next, worker, reads, if_true, Option.some.injEq, Prod.mk.injEq] at moves
      obtain ⟨rfl, rfl⟩ := moves
      exact .accept succeeded (by rw [served]; exact List.append_nil _)
    · simp only [Handler.next, worker, reads, Bool.false_eq_true, if_false, Callers.handOver, Option.some.injEq,
        Prod.mk.injEq] at moves
      obtain ⟨rfl, rfl⟩ := moves
      exact .stopped succeeded (by rw [served]; exact List.append_nil _) (by simpa using reads)
  | @accepted before r last succeeded served =>
    by_cases failed : r.res < 0
    · simp only [Handler.next, worker, failed, if_true, Callers.handOver, Option.some.injEq, Prod.mk.injEq] at moves
      obtain ⟨rfl, rfl⟩ := moves
      exact .failed last succeeded failed (by rw [served]; exact List.append_nil _)
    · simp only [Handler.next, worker, failed, if_false, Option.some.injEq, Prod.mk.injEq] at moves
      obtain ⟨rfl, rfl⟩ := moves
      have length : before.length + 1 = results.length := by rw [last, List.length_append, List.length_singleton]
      rw [length]
      refine .test (fun res member => ?_) (by rw [last, serving_concat, served]; rfl)
      rw [last] at member
      rcases List.mem_append.mp member with earlier | new
      · exact succeeded res earlier
      · rw [List.mem_singleton.mp new]
        omega
  | accept | stopped | failed => cases moves

theorem LoopStage.answer {k : Kind} {op : A} {next : Answer → Worker S k} {callers : Callers E V (Worker S) k}
    {r : Answer} (stage : LoopStage accept running handle results tasks (.blocked op next callers)) :
    LoopStage accept running handle (results ++ [r.res]) tasks (.exec (next r) callers) := by
  cases stage with
  | accept succeeded served => exact .accepted rfl succeeded served

/-- What the accept loop has spawned: a handler for each descriptor it has got, in their order. -/
theorem LoopStage.serves (stage : LoopStage accept running handle results tasks h)
    (program : Code E V A (Worker S)) : tasks <+: serving handle (results.filter (0 ≤ ·)) ∧
      (h.next program = none → tasks = serving handle (results.filter (0 ≤ ·))) := by
  have all : ∀ {fds : List Int}, (∀ res ∈ fds, 0 ≤ res) → fds.filter (0 ≤ ·) = fds := fun succeeded =>
    List.filter_eq_self.mpr fun res member => decide_eq_true (succeeded res member)
  cases stage with
  | test succeeded served | accept succeeded served | stopped succeeded served _ =>
    rw [all succeeded, served]
    exact ⟨List.prefix_rfl, fun _ => rfl⟩
  | accepted last succeeded served =>
    refine ⟨?_, fun rest => absurd rest (Handler.next_exec _ _)⟩
    rw [last, List.filter_append, all succeeded, served]
    exact serving_append _ _ _
  | failed last succeeded negative served =>
    rw [last, List.filter_append, all succeeded, served, List.filter_singleton, decide_eq_false (by omega), cond_false,
      List.append_nil]
    exact ⟨List.prefix_rfl, fun _ => rfl⟩

theorem LoopStage.of_trace {events : List (Event A (Worker S))}
    (trace : Handler.Trace (worker accept running handle code) (.begin (.test 0)) events h) :
    LoopStage accept running handle (resultsOf events) (spawns events) h := by
  refine trace.invariant (P := fun events h => LoopStage accept running handle (resultsOf events) (spawns events) h)
    (.test nofun rfl) (fun stage moved => ?_) fun {k before op next callers r} stage => ?_
  · rw [resultsOf, Handler.exchanges_move moved, spawns, List.filterMap_append]
    exact stage.move moved
  · have answered := stage.answer (r := r)
    simpa [resultsOf, exchanges, spawns] using answered

theorem worker_embeds : Embeds code (worker accept running handle code) fun _ => Worker.handler := fun _ _ => rfl

/-- Everything that is spawned in a worker is a handler. -/
theorem worker_spawns {k : Kind} {s : Worker S k} {task : Worker S .void} {next : Worker S k}
    (act : worker accept running handle code k s = .spawn task next) : ∃ s' : S .void, task = .handler s' := by
  cases s with
  | test n => cases reads : running n <;> simp [worker, reads] at act
  | accepted n r =>
    by_cases failed : r.res < 0
    · simp [worker, failed] at act
    · simp only [worker, failed, if_false, Act.spawn.injEq] at act
      exact ⟨_, act.1.symm⟩
  | handler s =>
    cases same : code _ s <;> simp only [worker, same, Act.map, reduceCtorEq, Act.spawn.injEq] at act
    exact ⟨_, act.1.symm⟩

theorem LoopStage.no_error {e : E} (stage : LoopStage accept running handle results tasks h) : h ≠ .ended (.error e) := by
  cases stage <;> exact nofun

/-- What a worker does: its accept loop spawns one handler for each connection
it accepts, in the order of the accepts, all other tasks are spawned by these
handlers, and each of them does what its program does alone. -/
structure Serves (handle : Nat → Int → S .void) (code : Code E V A S) (w : World E V A (Worker S)) : Prop where
  fault : w.fault = none
  started : w.started = .test 0 :: spawns (w.log.map Prod.snd)
  begun : spawns (w.events 0) <+: serving handle ((resultsOf (w.events 0)).filter (0 ≤ ·))
  complete : w.stack = [] → spawns (w.events 0) = serving handle ((resultsOf (w.events 0)).filter (0 ≤ ·))
  handlers : ∀ t, 0 < t → t < w.started.length → ∃ s : S .void, w.started[t]? = some (.handler s)
  alone : ∀ t (s : S .void), w.started[t]? = some (.handler s) → ∃ events g, Handler.Trace code (.begin s) events g ∧
    w.events t = events.map (Event.map fun _ => .handler) ∧ (w.stack = [] → g.next code = none)
  aborts : w.aborted = true → ∃ t s events e, w.started[t]? = some (.handler s) ∧
    w.events t = events.map (Event.map fun _ => .handler) ∧ Handler.Trace code (.begin s) events (.ended (.error e))

/-- A worker from the boot task on that spawns its accept loop, with nothing else posted. -/
theorem worker_serves {moves : List (Move (Worker S))}
    (reach : RunWhile (step (worker accept running handle code)) (fun _ m => m.posted = none)
      (World.spawned {} (.test 0)) moves w) : Serves handle code w := by
  obtain ⟨fault, handlers, follows⟩ := run_sound ((first_posted _).trans reach.run)
  have started := run_started reach
  have loop : w.started[0]? = some (.test 0) := by rw [started]; rfl
  have stage := LoopStage.of_trace (follows.traces 0 _ loop)
  obtain ⟨begun, complete⟩ := stage.serves (worker accept running handle code)
  have spawned : ∀ t, 0 < t → t < w.started.length → ∃ s : S .void, w.started[t]? = some (.handler s) := by
    intro t positive below
    obtain ⟨task, at_t⟩ : ∃ task, w.started[t]? = some task := ⟨_, List.getElem?_eq_getElem below⟩
    obtain ⟨n, rfl⟩ := Nat.exists_eq_succ_of_ne_zero (Nat.ne_of_gt positive)
    have inside := at_t
    rw [started, List.getElem?_cons_succ] at inside
    obtain ⟨s, rfl⟩ := follows.spawns_of_code (fun _ _ _ _ => worker_spawns) task (List.mem_of_getElem? inside)
    exact ⟨s, at_t⟩
  refine ⟨fault, started, begun, fun idle => complete ?_, spawned, fun t s at_t => ?_, fun aborted => ?_⟩
  · exact follows.represents.rests _ idle (List.getElem?_eq_some_iff.mp loop).1
  · obtain ⟨events, g, trace, same, place⟩ := worker_embeds.trace (h := .begin s) (follows.traces t _ at_t)
    refine ⟨events, g, trace, same, fun idle => ?_⟩
    have rests := follows.represents.rests (worker accept running handle code) idle (List.getElem?_eq_some_iff.mp at_t).1
    rwa [place, worker_embeds.next, Option.map_eq_none_iff] at rests
  · obtain ⟨t, below, e, ended⟩ := follows.threw aborted
    rcases Nat.eq_zero_or_pos t with rfl | positive
    · exact absurd ended stage.no_error
    · obtain ⟨s, at_t⟩ := spawned t positive below
      obtain ⟨events, g, trace, same, place⟩ := worker_embeds.trace (h := .begin s) (follows.traces t _ at_t)
      rw [ended] at place
      cases g with
      | ended r =>
        cases place
        exact ⟨t, s, events, e, at_t, same, trace⟩
      | exec => cases place
      | blocked => cases place

/-- The loop accepts two connections, and the third accept fails. -/
def twoAccepted : List (Move (Worker Echo)) :=
  [.execute, .complete 0 ⟨7, []⟩, .turn, .execute, .execute, .execute, .execute, .complete 2 ⟨9, []⟩, .turn, .execute,
    .execute, .execute, .execute, .complete 4 ⟨-125, []⟩, .turn, .execute]

theorem two_accepted_served :
    let w := after (step (worker (.accept 3) (fun _ => true) (fun _ _ => Echo.handler) echo))
      (World.spawned {} (.test 0)) twoAccepted
    spawns (w.events 0) = [.handler .handler, .handler .handler] := by
  intro w
  have reach : RunWhile (step (worker (.accept 3) (fun _ => true) (fun _ _ => Echo.handler) echo))
      (fun _ m => m.posted.isNone = true) (World.spawned {} (.test 0)) twoAccepted w := guarded_run (run_eq_some rfl)
  have alone : RunWhile (step (worker (.accept 3) (fun _ => true) (fun _ _ => Echo.handler) echo))
      (fun _ m => m.posted = none) (World.spawned {} (.test 0)) twoAccepted w :=
    reach.weaken fun _ _ _ _ met => Option.isNone_iff_eq_none.mp met
  exact (worker_serves alone).complete rfl

end CoroNet.TcpServer
