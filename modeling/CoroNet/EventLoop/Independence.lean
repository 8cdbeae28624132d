import CoroNet.EventLoop.Steps
import CoroNet.General.Runs
import CoroNet.Scheduler.Loop

namespace CoroNet.EventLoop

open Coroutine (Kind Promise Fault)
open Function Transition

variable {E V A : Type} {S : Kind → Type} {code : Code E V A S} {w w' : World E V A S} {k : Kind} {t b : Nat}
  {callers : Callers E V S k} {frames : List Nat} {handlers : Nat → Handler E V A S} {f : Frame E V S}
  {s : S k} {rest : List (Active S)} {e : Event A S} {h : Handler E V A S}

/-- What handler `t` has done. -/
def World.events (w : World E V A S) (t : Nat) : List (Event A S) :=
  w.log.filterMap fun entry => if entry.1 = t then some entry.2 else none

/-- The operations of handler `t` that have been answered. -/
def World.exchanges (w : World E V A S) (t : Nat) : List (A × Answer) := EventLoop.exchanges (w.events t)

/-- The frames are those of handlers that have done, each alone, what the log says of them. -/
structure Follows (code : Code E V A S) (w : World E V A S) (handlers : Nat → Handler E V A S) : Prop where
  represents : Represents w handlers
  traces : ∀ t task, w.started[t]? = some task → Handler.Trace code (.begin task) (w.events t) (handlers t)
  logged : ∀ entry ∈ w.log, entry.1 < w.started.length
  threw : w.aborted = true → ∃ t < w.started.length, ∃ e, handlers t = .ended (.error e)

theorem Leaves.note (t' : Nat) : Leaves w (w.note t e) t' :=
  ⟨fun _ _ _ => Iff.rfl, rfl, fun _ member _ => member, fun _ _ _ made _ _ => ⟨made, Iff.rfl⟩, fun _ _ _ _ => Iff.rfl⟩

theorem Represents.note (rep : Represents w handlers) (alive : w.aborted = false) :
    Represents (w.note t e) handlers := by
  refine ⟨fun t' below => ?_, rep.owners, rep.running, rep.once,
    rep.queued.keep (fun _ _ _ _ _ here _ => here) rfl rfl rfl rfl, rep.fresh⟩
  obtain ⟨frames, stands, owned⟩ := rep.stands t' below
  exact ⟨frames, (Leaves.note t').stands alive stands, owned⟩

theorem Executes.note (at_top : Executes w handlers b s f callers frames) :
    Executes (w.note t e) handlers b s f callers frames :=
  ⟨at_top.here, at_top.point, at_top.owner, at_top.handler, (Leaves.note _).chain at_top.chain, at_top.owned⟩

/-- The outcome of the coroutine on top of the stack goes to its caller, or
ends the handler. -/
theorem Represents.finish (rep : Represents w handlers) (alive : w.aborted = false)
    (top : w.stack = ⟨b, k, s⟩ :: rest) (at_top : Executes w handlers b s f callers frames)
    (result : Except E (k.Ret V)) :
    ∃ w', w.finish b (fun promise => promise.store k result) = .ok w' ∧
      Represents w' (update handlers f.owner (callers.handOver result)) ∧
      (w'.aborted = true → ∃ e, (callers.handOver result : Handler E V A S) = .ended (.error e)) ∧
      w'.log = w.log ∧ w'.started = w.started ∧ w'.fault = w.fault := by
  have quiet : ∀ {h : Handler E V A S}, w.aborted = true → ∃ e, h = .ended (.error e) := fun aborted =>
    absurd (alive.symm.trans aborted) Bool.false_ne_true
  cases callers with
  | nobody =>
    have chain := at_top.chain
    cases chain with
    | root here owner promise continuation shim =>
      cases here.symm.trans at_top.here
      cases result with
      | ok r =>
        exact ⟨_, World.finish_returned at_top.here promise continuation shim, rep.return alive top at_top, quiet, rfl, rfl, rfl⟩
      | error e =>
        exact ⟨_, World.finish_threw at_top.here promise continuation shim, rep.throw alive top at_top,
          fun _ => ⟨e, rfl⟩, rfl, rfl, rfl⟩
  | caller next outer =>
    have chain := at_top.chain
    cases chain with
    | child here owner promise continuation parent waits older inner =>
      cases here.symm.trans at_top.here
      obtain ⟨g, there, ownerParent, _⟩ := inner.top
      cases there.symm.trans parent
      exact ⟨_, World.finish_caller result at_top.here promise continuation parent waits (Nat.ne_of_lt older),
        rep.continue alive top at_top parent ownerParent older inner, quiet, rfl, rfl, rfl⟩

theorem World.events_of_log (log : w'.log = w.log ++ [(t, e)]) (t' : Nat) :
    w'.events t' = w.events t' ++ if t' = t then [e] else [] := by
  rw [events, log, List.filterMap_append, events]
  by_cases same : t' = t
  · subst same
    simp
  · simp [same, Ne.symm same]

theorem Follows.init : Follows code ({} : World E V A S) (fun _ => .ended (.ok ())) := by
  refine ⟨⟨nofun, nofun, nofun, List.nodup_nil, ⟨nofun, List.nodup_nil, nofun, List.nodup_nil, fun _ _ => rfl⟩,
    fun _ _ => rfl⟩, nofun, nofun, nofun⟩

/-- A handler has taken a step that is in its program. -/
theorem Follows.moved (follows : Follows code w handlers) (below : t < w.started.length)
    (rep : Represents w' (update handlers t h)) (log : w'.log = w.log ++ [(t, e)]) (started : w'.started = w.started)
    (threw : w'.aborted = true → ∃ e, h = .ended (.error e)) (advance : Handler.Trace code (handlers t) [e] h) :
    Follows code w' (update handlers t h) := by
  refine ⟨rep, fun t' task at_t => ?_, fun entry member => ?_, fun aborted => ?_⟩
  · rw [started] at at_t
    have before := follows.traces t' task at_t
    rw [World.events_of_log log]
    by_cases same : t' = t
    · subst same
      rw [if_pos rfl, update_self]
      exact before.trans advance
    · rw [if_neg same, List.append_nil, update_of_ne same]
      exact before
  · rw [started]
    rw [log] at member
    rcases List.mem_append.mp member with before | new
    · exact follows.logged entry before
    · cases List.mem_singleton.mp new
      exact below
  · obtain ⟨e, same⟩ := threw aborted
    exact ⟨t, started ▸ below, e, by rw [update_self, same]⟩

theorem Follows.unstarted (follows : Follows code w handlers) (late : w.started.length ≤ t) : w.events t = [] := by
  refine List.filterMap_eq_nil_iff.mpr fun entry member => if_neg ?_
  have below := follows.logged entry member
  omega

/-- A new handler has done nothing. -/
theorem Follows.spawn (follows : Follows code w handlers) (alive : w.aborted = false) (task : S .void) :
    Follows code (w.spawned task) (update handlers w.started.length (.begin task)) := by
  refine ⟨follows.represents.spawn alive task, fun t task' at_t => ?_, fun entry member => ?_,
    fun aborted => absurd (alive.symm.trans aborted) Bool.false_ne_true⟩
  · have at_t : (w.started ++ [task])[t]? = some task' := at_t
    by_cases new : t = w.started.length
    · subst new
      have same : task' = task := by simpa using at_t.symm
      have nothing : (w.spawned task).events w.started.length = [] := follows.unstarted (Nat.le_refl _)
      rw [same, nothing, update_self]
      exact .start _
    · rw [update_of_ne new]
      have below : t < w.started.length := by
        have inside := (List.getElem?_eq_some_iff.mp at_t).1
        rw [List.length_append, List.length_singleton] at inside
        omega
      rw [List.getElem?_append_left below] at at_t
      exact follows.traces t task' at_t
  · have length : (w.spawned task).started.length = w.started.length + 1 := List.length_append
    rw [length]
    exact Nat.lt_succ_of_lt (follows.logged entry member)

/-- A step adds to what is known of the handlers: who spawns is in the log, or it is `posted`. -/
def World.Grows (w w' : World E V A S) (posted : Option (S .void)) : Prop :=
  ∃ entries, w'.log = w.log ++ entries ∧ w'.started = w.started ++ posted.toList ++ spawns (entries.map Prod.snd)

/-- An event that spawns nothing. -/
theorem World.Grows.entry (log : w'.log = w.log ++ [(t, e)]) (started : w'.started = w.started)
    (none_spawned : spawns [e] = []) : w.Grows w' none :=
  ⟨[(t, e)], log, by simp [started, none_spawned]⟩

/-- What a step leaves. -/
structure Sound (code : Code E V A S) (w : World E V A S) : Prop where
  fault : w.fault = none
  follows : ∃ handlers, Follows code w handlers

theorem Follows.execute (follows : Follows code w handlers) (sound : w.fault = none) (alive : w.aborted = false)
    {x : Active S} (top : w.stack = x :: rest) :
    ∃ w', w.execute code x = .ok w' ∧ Sound code w' ∧ w.Grows w' none := by
  obtain ⟨b, k, s⟩ := x
  obtain ⟨f, callers, frames, at_top⟩ := follows.represents.executes alive (top ▸ List.mem_cons_self)
  have found : w.frame b = .ok f := by rw [World.frame, at_top.here]
  have below := at_top.owner
  have rep : ∀ e, Represents (w.note f.owner e) handlers := fun e => follows.represents.note alive
  have next : ∀ e h, (handlers f.owner).next code = some (e, h) → Handler.Trace code (handlers f.owner) [e] h :=
    fun e h moves => .move moves (.start h)
  have quiet : ∀ {h : Handler E V A S}, w.aborted = true → ∃ e, h = .ended (.error e) := fun aborted =>
    absurd (alive.symm.trans aborted) Bool.false_ne_true
  simp only [World.execute, found, bind, Except.bind]
  cases act : code k s with
  | ret r =>
    obtain ⟨w', done, rep', threw, log, started, fault⟩ :=
      Represents.finish (rep .silent) alive top at_top.note (.ok r : Except E (k.Ret V))
    refine ⟨w', done, ⟨fault.trans sound, _, follows.moved below rep' log started threw (next _ _ ?_)⟩,
      .entry log started rfl⟩
    simp [Handler.next, at_top.handler, act]
  | throw e =>
    obtain ⟨w', done, rep', threw, log, started, fault⟩ :=
      Represents.finish (rep .silent) alive top at_top.note (.error e : Except E (k.Ret V))
    refine ⟨w', done, ⟨fault.trans sound, _, follows.moved below rep' log started threw (next _ _ ?_)⟩,
      .entry log started rfl⟩
    simp [Handler.next, at_top.handler, act]
  | await child go =>
    have apart := Nat.ne_of_lt (follows.represents.made at_top.here)
    refine ⟨_, World.await_eq at_top.here apart, ⟨sound, _,
      follows.moved below (Represents.await (rep .silent) alive top at_top.note) rfl rfl quiet (next _ _ ?_)⟩,
      .entry (Eq.refl (w.log ++ [(f.owner, .silent)])) rfl rfl⟩
    simp [Handler.next, at_top.handler, act]
  | io op go =>
    refine ⟨_, World.suspend_eq at_top.here, ⟨sound, _,
      follows.moved below (Represents.suspend (rep (.asks op)) alive top at_top.note) rfl rfl quiet (next _ _ ?_)⟩,
      .entry (Eq.refl (w.log ++ [(f.owner, .asks op)])) rfl rfl⟩
    simp [Handler.next, at_top.handler, act]
  | spawn task go =>
    have goes : (handlers f.owner).next code = some (.spawns task, .exec go callers) := by
      simp [Handler.next, at_top.handler, act]
    have moved : Follows code { w.note f.owner (.spawns task) with stack := ⟨b, k, go⟩ :: w.stack.tail }
        (update handlers f.owner (.exec go callers)) :=
      follows.moved below (Represents.goOn (rep (.spawns task)) alive top at_top.note) rfl rfl quiet (next _ _ goes)
    exact ⟨_, World.spawn_eq task, ⟨sound, _, moved.spawn alive task⟩, [(f.owner, .spawns task)], rfl,
      by simp [World.spawned, World.note, spawns]⟩

/-- The coroutine at the head of the ready queue gets its answer. -/
theorem Follows.turn (follows : Follows code w handlers) (sound : w.fault = none) (alive : w.aborted = false)
    (idle : w.stack = []) {others : List Nat} (ready : w.readyQueue = b :: others) :
    ∃ w', World.resume { w with readyQueue := others } b = .ok w' ∧ Sound code w' ∧ w.Grows w' none := by
  obtain ⟨f, a, k, next, here, point⟩ := follows.represents.queued.ready b (ready ▸ List.mem_cons_self)
  obtain ⟨awaiter, callers, frames, waits⟩ := follows.represents.waits alive here point
  have quiet : ∀ {h : Handler E V A S}, w.aborted = true → ∃ e, h = .ended (.error e) := fun aborted =>
    absurd (alive.symm.trans aborted) Bool.false_ne_true
  refine ⟨_, World.resume_eq here point waits.made, ⟨sound, _,
    follows.moved waits.owner (follows.represents.answer alive idle ready waits) rfl rfl quiet ?_⟩,
    .entry (Eq.refl (w.log ++ [(f.owner, .answered awaiter.op awaiter.result)])) rfl rfl⟩
  rw [waits.handler]
  exact .answer (.start _)

theorem Follows.complete (follows : Follows code w handlers) (sound : w.fault = none) (alive : w.aborted = false)
    {a : Nat} (inside : a ∈ w.inflight) (r : Answer) :
    ∃ w', World.onComplete { w with inflight := w.inflight.erase a } a r = .ok w' ∧ Sound code w' ∧
      w.Grows w' none := by
  obtain ⟨awaiter, f, k, next, made, here, point⟩ := follows.represents.queued.inflight a inside
  obtain ⟨awaiter', callers, frames, waits⟩ := follows.represents.waits alive here point
  cases made.symm.trans waits.made
  refine ⟨_, World.onComplete_eq made here point, ⟨sound, handlers,
    follows.represents.complete alive inside waits, follows.traces, follows.logged, follows.threw⟩, [], ?_, ?_⟩
  · simp [World.completed]
  · simp [World.completed, spawns]

theorem Sound.step {m : Move S} (sound : Sound code w) (move : step code w m = some w') :
    Sound code w' ∧ w.Grows w' m.posted := by
  obtain ⟨fault, handlers, follows⟩ := sound
  unfold EventLoop.step at move
  obtain ⟨running, move⟩ := Option.ite_none_left_eq_some.mp move
  have alive : w.aborted = false := by simpa [fault] using running
  cases top : w.stack with
  | cons x rest =>
    cases m <;> simp only [top, reduceCtorEq, Option.some.injEq] at move
    obtain ⟨next, done, after⟩ := follows.execute fault alive top
    rw [done, World.outcome] at move
    exact move ▸ after
  | nil =>
    cases m with
    | execute => simp [top] at move
    | turn =>
      cases ready : w.readyQueue with
      | nil => simp [top, ready] at move
      | cons b others =>
        obtain ⟨next, done, after⟩ := follows.turn fault alive top ready
        simp only [top, ready, Option.some.injEq] at move
        rw [top] at done
        rw [done, World.outcome] at move
        exact move ▸ after
    | complete a r =>
      simp only [top] at move
      obtain ⟨inside, move⟩ := Option.ite_none_right_eq_some.mp move
      obtain ⟨next, done, after⟩ := follows.complete fault alive inside r
      rw [top] at done
      rw [done, World.outcome, Option.some.injEq] at move
      exact move ▸ after
    | spawn task =>
      simp only [top, World.spawn_eq, World.outcome, Option.some.injEq] at move
      subst move
      exact ⟨⟨fault, _, follows.spawn alive task⟩, [], by simp [World.spawned], by simp [World.spawned, Move.posted, spawns]⟩

theorem run_sound {moves : List (Move S)} (reach : Run (step code) {} moves w) : Sound code w :=
  reach.invariant ⟨rfl, _, .init⟩ fun sound move => (sound.step move).1

/-- The world after the first task has been posted. -/
theorem first_posted (task : S .void) : Run (step code) {} [.spawn task] (World.spawned {} task) := by
  refine Run.single ?_
  simp [step, World.spawn_eq, World.outcome]

/-- Where nothing else is posted, the handlers have spawned all tasks but the first. -/
theorem run_started {task : S .void} {moves : List (Move S)}
    (reach : RunWhile (step code) (fun _ m => m.posted = none) (World.spawned {} task) moves w) :
    w.started = task :: spawns (w.log.map Prod.snd) := by
  refine (reach.invariant (P := fun w => Sound code w ∧ w.started = task :: spawns (w.log.map Prod.snd))
    ⟨run_sound (first_posted task), rfl⟩ fun {w m w'} held none_posted move => ?_).2
  obtain ⟨sound, entries, log, started⟩ := held.1.step move
  refine ⟨sound, ?_⟩
  rw [started, held.2, none_posted, log, List.map_append, spawns, spawns, spawns, List.filterMap_append]
  simp

theorem mem_events : e ∈ w.events t ↔ (t, e) ∈ w.log := by
  simp only [World.events, List.mem_filterMap, Option.ite_none_right_eq_some, Option.some.injEq]
  constructor
  · rintro ⟨⟨_, _⟩, inside, rfl, rfl⟩
    exact inside
  · exact fun inside => ⟨(t, e), inside, rfl, rfl⟩

/-- Where one handler spawns all. -/
theorem spawns_log (others : ∀ t', t' ≠ t → spawns (w.events t') = []) :
    spawns (w.log.map Prod.snd) = spawns (w.events t) := by
  rw [spawns, spawns, World.events, List.filterMap_map, List.filterMap_filterMap]
  refine List.filterMap_congr fun entry member => ?_
  obtain ⟨t', e⟩ := entry
  by_cases same : t' = t
  · simp [same]
  · have nothing := List.filterMap_eq_nil_iff.mp (others t' same) e (mem_events.mpr member)
    simpa [same] using nothing

theorem Follows.spawns_of_code {P : S .void → Prop} (follows : Follows code w handlers)
    (program : ∀ k s task next, code k s = .spawn task next → P task) :
    ∀ task ∈ spawns (w.log.map Prod.snd), P task := by
  intro task inside
  obtain ⟨e, member, spawned⟩ := List.mem_filterMap.mp inside
  obtain ⟨⟨owner, e⟩, logged, rfl⟩ := List.mem_map.mp member
  have trace := follows.traces owner _ (List.getElem?_eq_getElem (follows.logged _ logged))
  exact trace.spawns_of_code program task (List.mem_filterMap.mpr ⟨e, mem_events.mpr logged, spawned⟩)

/-- However tasks are spawned, operations complete and coroutines are resumed:
nothing dangling is resumed or destroyed, and every handler is where its
program gets when it runs alone and sequentially with the answers its own
operations have got. The process aborts only where one of these programs lets
an exception out. -/
theorem handlers_run_alone {moves : List (Move S)} (reach : Run (step code) {} moves w) :
    w.fault = none ∧ ∃ handlers, Represents w handlers ∧
      (∀ t task, w.started[t]? = some task → Handler.Trace code (.begin task) (w.events t) (handlers t)) ∧
      (w.aborted = true → ∃ t < w.started.length, ∃ e, handlers t = .ended (.error e)) := by
  obtain ⟨fault, handlers, follows⟩ := run_sound reach
  exact ⟨fault, handlers, follows.represents, follows.traces, follows.threw⟩

/-- A coroutine in `echo`: the handler, the child it awaits, and what each
does with what it gets. -/
inductive Echo : Kind → Type
  | handler : Echo .void
  | reader : Echo .value
  | received (r : Answer) : Echo .value
  | got (r : Except Unit (List UInt8)) : Echo .void
  | sent (r : Answer) : Echo .void

/-- A handler whose child receives, and which sends what it gets. -/
def echo : Code Unit (List UInt8) Scheduler.IoAwaiter Echo
  | _, .handler => .await .reader .got
  | _, .reader => .io (.recv 5 16) .received
  | _, .received r => if r.res ≤ 0 then .throw () else .ret r.data
  | _, .got (.ok data) => .io (.send 5 data.length) .sent
  | _, .got (.error _) => .ret ()
  | _, .sent _ => .ret ()

/-- Two handlers: the second one gets its data first, the first one none. -/
def twoEchoes : List (Move Echo) :=
  [.spawn .handler, .execute, .execute, .spawn .handler, .execute, .execute, .complete 1 ⟨2, [104, 105]⟩,
    .complete 0 ⟨0, []⟩, .turn, .execute, .execute, .turn, .execute, .execute, .complete 2 ⟨2, []⟩, .turn, .execute]

theorem two_echoes_run_alone :
    ∃ handlers, Represents (after (step echo) {} twoEchoes) handlers ∧
      Handler.Trace echo (.begin .handler) ((after (step echo) {} twoEchoes).events 1) (handlers 1) := by
  have reach : Run (step echo) {} twoEchoes (after (step echo) {} twoEchoes) := run_eq_some rfl
  obtain ⟨_, handlers, represents, traces, _⟩ := handlers_run_alone reach
  exact ⟨handlers, represents, traces 1 .handler rfl⟩

/-- With nothing left to do, nothing is left: every handler has returned, and
all its frames are destroyed. -/
theorem nothing_left {moves : List (Move S)} (reach : Run (step code) {} moves w) (idle : w.stack = [])
    (ready : w.readyQueue = []) (inflight : w.inflight = []) (alive : w.aborted = false) :
    (∀ b, w.heap b = none) ∧ ∀ t task, w.started[t]? = some task →
      w.shims t = none ∧ Handler.Trace code (.begin task) (w.events t) (.ended (.ok ())) := by
  obtain ⟨_, handlers, rep, traces, _⟩ := handlers_run_alone reach
  have returned : ∀ t < w.started.length, handlers t = .ended (.ok ()) ∧ w.shims t = none ∧
      ∀ b f, w.heap b = some f → f.owner ≠ t := by
    intro t below
    obtain ⟨frames, stands, owned⟩ := rep.stands t below
    generalize handlers t = h at stands
    cases stands with
    | exec _ _ _ inside => rw [idle] at inside; exact absurd inside List.not_mem_nil
    | blocked _ _ _ _ _ place =>
      rw [ready, inflight] at place
      simp at place
    | returned gone => exact ⟨rfl, gone, fun b f here owner => absurd (owned b f here owner) List.not_mem_nil⟩
    | threw aborted => exact absurd (alive.symm.trans aborted) Bool.false_ne_true
  refine ⟨fun b => ?_, fun t task at_t => ?_⟩
  · cases here : w.heap b with
    | none => rfl
    | some f => exact absurd rfl ((returned f.owner (rep.owners b f here)).2.2 b f here)
  · obtain ⟨same, gone, _⟩ := returned t (List.getElem?_eq_some_iff.mp at_t).1
    exact ⟨gone, same ▸ traces t task at_t⟩

theorem two_echoes_left : (after (step echo) {} twoEchoes).heap = fun _ => none := by
  have reach : Run (step echo) {} twoEchoes (after (step echo) {} twoEchoes) := run_eq_some rfl
  exact funext (nothing_left reach rfl rfl rfl rfl).1

theorem Represents.rests (rep : Represents w handlers) (program : Code E V A S) (idle : w.stack = [])
    (below : t < w.started.length) : (handlers t).next program = none := by
  obtain ⟨frames, stands, _⟩ := rep.stands t below
  generalize handlers t = h at stands
  cases stands with
  | exec _ _ _ inside => rw [idle] at inside; exact absurd inside List.not_mem_nil
  | _ => rfl

/-- What a handler does is decided by its task and by the answers to its own
operations: in any two runs, among any other handlers and in any order of
completions, one that gets the same answers does the same. -/
theorem answers_decide {moves moves' : List (Move S)} {t' : Nat} {task : S .void} (reach : Run (step code) {} moves w)
    (reach' : Run (step code) {} moves' w') (started : w.started[t]? = some task)
    (started' : w'.started[t']? = some task) :
    (answers (w.events t) <+: answers (w'.events t') →
      w.events t <+: w'.events t' ∨ w'.events t' <+: w.events t) ∧
    (w.stack = [] → w'.stack = [] → answers (w.events t) = answers (w'.events t') → w.events t = w'.events t') := by
  obtain ⟨_, handlers, rep, traces, _⟩ := handlers_run_alone reach
  obtain ⟨_, handlers', rep', traces', _⟩ := handlers_run_alone reach'
  have trace := traces t task started
  have trace' := traces' t' task started'
  refine ⟨trace.comparable trace', fun idle idle' same => ?_⟩
  have rest := rep.rests code idle (List.getElem?_eq_some_iff.mp started).1
  have rest' := rep'.rests code idle' (List.getElem?_eq_some_iff.mp started').1
  exact (trace.unique trace' rest rest' same).1

/-- One handler, with the answers of the second one of the two. -/
def oneEcho : List (Move Echo) :=
  [.spawn .handler, .execute, .execute, .complete 0 ⟨2, [104, 105]⟩, .turn, .execute, .execute, .complete 1 ⟨2, []⟩,
    .turn, .execute]

theorem one_echo_among_others :
    (after (step echo) {} oneEcho).events 0 = (after (step echo) {} twoEchoes).events 1 := by
  have one : Run (step echo) {} oneEcho (after (step echo) {} oneEcho) := run_eq_some rfl
  have two : Run (step echo) {} twoEchoes (after (step echo) {} twoEchoes) := run_eq_some rfl
  exact (answers_decide one two rfl rfl).2 rfl rfl rfl

end CoroNet.EventLoop
