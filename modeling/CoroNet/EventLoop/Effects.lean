import CoroNet.EventLoop.Conservation

namespace CoroNet.EventLoop

open Coroutine (Kind)
open Function Transition

variable {E V A : Type} {S : Kind → Type} {code : Code E V A S} {w w' : World E V A S} {k : Kind} {t a b c : Nat}
  {callers : Callers E V S k} {frames : List Nat} {handlers : Nat → Handler E V A S} {f : Frame E V S}
  {s : S k} {rest : List (Active S)} {e : Event A S} {m : Move S}

/-- Handler `t` waits for the operation of awaiter `a`, or has its answer but
has not been resumed. -/
structure World.Awaits (w : World E V A S) (t a : Nat) (awaiter : Awaiter A) : Prop where
  made : w.awaiters a = some awaiter
  blocked : ∃ f k next, w.heap awaiter.handle = some f ∧ f.owner = t ∧ f.point = .blocked a k next

/-- An awaiter belongs to one handler. -/
theorem World.Awaits.unique {t' : Nat} {awaiter awaiter' : Awaiter A} (awaits : w.Awaits t a awaiter)
    (awaits' : w.Awaits t' a awaiter') : t' = t ∧ awaiter' = awaiter := by
  obtain ⟨made, f, _, _, here, owner, _⟩ := awaits
  obtain ⟨made', f', _, _, here', owner', _⟩ := awaits'
  cases made.symm.trans made'
  cases here.symm.trans here'
  exact ⟨owner'.symm.trans owner, rfl⟩

/-- What a step does to the handlers, seen from the awaiters and the log. -/
inductive Effect (w w' : World E V A S) : Move S → Prop
  | goes {t : Nat} {e : Event A S} : (w.shims t).isSome → (∀ op, (w.events t).getLast? ≠ some (.asks op)) →
      w'.log = w.log ++ [(t, e)] → (∀ op, e ≠ .asks op) → (∀ op r, e ≠ .answered op r) →
      w'.started = w.started ++ spawns [e] → w'.inflight = w.inflight → w'.suspensions = w.suspensions →
      (∀ t' < w.started.length, (w'.shims t').isSome → (w.shims t').isSome) →
      (∀ t' a awaiter, w'.Awaits t' a awaiter → w.Awaits t' a awaiter) → Effect w w' .execute
  | asks {t : Nat} {op : A} : (w.shims t).isSome → (∀ op, (w.events t).getLast? ≠ some (.asks op)) →
      w'.log = w.log ++ [(t, .asks op)] → w'.started = w.started → w'.inflight = w.inflight ++ [w.suspensions] →
      w'.suspensions = w.suspensions + 1 → w'.shims = w.shims →
      (∀ t' a awaiter, w'.Awaits t' a awaiter →
        a ≠ w.suspensions ∧ w.Awaits t' a awaiter ∨ a = w.suspensions ∧ t' = t ∧ awaiter.op = op) → Effect w w' .execute
  | turn {t a : Nat} {awaiter : Awaiter A} : w.Awaits t a awaiter → a ∉ w.inflight →
      w'.log = w.log ++ [(t, .answered awaiter.op awaiter.result)] → w'.started = w.started → w'.inflight = w.inflight →
      w'.suspensions = w.suspensions → w'.shims = w.shims →
      (∀ t' a' awaiter', w'.Awaits t' a' awaiter' → a' ≠ a ∧ w.Awaits t' a' awaiter') → Effect w w' .turn
  | complete {t a : Nat} {awaiter : Awaiter A} {r : Answer} : w.Awaits t a awaiter → a ∈ w.inflight →
      w'.log = w.log → w'.started = w.started → w'.inflight = w.inflight.erase a → w'.suspensions = w.suspensions →
      w'.shims = w.shims →
      (∀ t' a' awaiter', w'.Awaits t' a' awaiter' → a' ≠ a ∧ w.Awaits t' a' awaiter' ∨
        a' = a ∧ t' = t ∧ awaiter' = { awaiter with result := r }) → Effect w w' (.complete a r)
  | spawn {task : S .void} : w'.log = w.log → w'.started = w.started ++ [task] → w'.inflight = w.inflight →
      w'.suspensions = w.suspensions → w'.shims = update w.shims w.started.length (some w.frames) →
      (∀ t' a awaiter, w'.Awaits t' a awaiter → w.Awaits t' a awaiter) → Effect w w' (.spawn task)

/-- A handler that has just asked for an operation waits for it. -/
theorem Handler.Trace.waits_last {task : S .void} {g : Handler E V A S} {events : List (Event A S)} {op : A}
    (trace : Trace code (.begin task) events g) (last : events.getLast? = some (.asks op)) : g.asks = some op := by
  suffices kept : ∀ op, events.getLast? = some (.asks op) → g.asks = some op from kept op last
  refine trace.invariant (P := fun events h => ∀ op, events.getLast? = some (.asks op) → h.asks = some op)
    nofun (fun {before h e h'} _ moved op last => ?_) fun _ op last => ?_
  · rw [List.getLast?_concat, Option.some.injEq] at last
    subst last
    unfold next at moved
    split at moved
    · split at moved <;> cases Option.some.inj moved
      rfl
    · cases moved
  · rw [List.getLast?_concat] at last
    cases last

theorem Follows.asked (follows : Follows code w handlers) (below : t < w.started.length) (op : A) :
    (w.events t).getLast? = some (.asks op) ↔ (handlers t).asks = some op := by
  have trace := follows.traces t _ (List.getElem?_eq_getElem below)
  exact ⟨trace.waits_last, trace.last_asks⟩

theorem Follows.awaits (follows : Follows code w handlers) (alive : w.aborted = false) {awaiter : Awaiter A}
    (awaits : w.Awaits t a awaiter) : t < w.started.length ∧ (w.shims t).isSome ∧
      (w.events t).getLast? = some (.asks awaiter.op) ∧ ∀ a' awaiter', w.Awaits t a' awaiter' → a' = a := by
  obtain ⟨made, f, k, next, here, rfl, point⟩ := awaits
  obtain ⟨awaiter', callers, frames, waits⟩ := follows.represents.waits alive here point
  cases made.symm.trans waits.made
  have asks : (handlers f.owner).asks = some awaiter.op := by rw [waits.handler, Handler.asks]
  have free : ¬ f.Waiting := by simp [Frame.Waiting, point]
  refine ⟨waits.owner, waits.chain.shim, (follows.asked waits.owner _).mpr asks, fun a' awaiter' awaits' => ?_⟩
  obtain ⟨_, f', k', next', here', owner', point'⟩ := awaits'
  have free' : ¬ f'.Waiting := by simp [Frame.Waiting, point']
  have same := (follows.represents.top alive here free).2 _ f' here' owner' free'
  rw [same] at here'
  cases here.symm.trans here'
  rw [point] at point'
  cases point'
  rfl

theorem Follows.awaiting (follows : Follows code w handlers) (below : t < w.started.length) {op : A}
    (asks : (handlers t).asks = some op) : ∃ a awaiter, w.Awaits t a awaiter ∧ awaiter.op = op := by
  obtain ⟨frames, stands, _⟩ := follows.represents.stands t below
  generalize handlers t = h at stands asks
  cases stands with
  | @blocked k b a f awaiter next callers frames here point chain made handle place =>
    cases asks
    subst handle
    obtain ⟨f', there, owner, _⟩ := chain.top
    cases here.symm.trans there
    exact ⟨a, awaiter, ⟨made, f, k, next, here, owner, point⟩, rfl⟩
  | exec | returned | threw => cases asks

/-- An operation in flight belongs to a handler. -/
theorem Follows.inflight (follows : Follows code w handlers) (inside : a ∈ w.inflight) :
    ∃ t awaiter, w.Awaits t a awaiter := by
  obtain ⟨awaiter, f, k, next, made, here, point⟩ := follows.represents.queued.inflight a inside
  exact ⟨f.owner, awaiter, made, f, k, next, here, rfl, point⟩

/-- Frames that go, or come to other places, are of no account for who waits. -/
theorem blocked_of_erase {heap : Nat → Option (Frame E V S)} (here : update heap b none c = some f) :
    heap c = some f := by
  by_cases same : c = b
  · subst same
    rw [update_self] at here
    cases here
  · rwa [update_of_ne same] at here

theorem blocked_of_set {heap : Nat → Option (Frame E V S)} {g : Frame E V S} {next : Answer → S k}
    (other : ∀ a k next, g.point ≠ @Point.blocked E V S a k next) (here : update heap b (some g) c = some f)
    (point : f.point = .blocked a k next) : heap c = some f := by
  by_cases same : c = b
  · subst same
    rw [update_self] at here
    cases here
    exact absurd point (other a k next)
  · rwa [update_of_ne same] at here

theorem World.Awaits.back {awaiter : Awaiter A} (awaits : w'.Awaits t a awaiter) (same : w'.awaiters = w.awaiters)
    (heap : ∀ c f a k next, w'.heap c = some f → f.point = @Point.blocked E V S a k next → w.heap c = some f) :
    w.Awaits t a awaiter := by
  obtain ⟨made, f, k, next, here, owner, point⟩ := awaits
  exact ⟨same ▸ made, f, k, next, heap _ f a k next here point, owner, point⟩

/-- The end of a coroutine: what was waiting goes on waiting. -/
theorem Executes.finish (at_top : Executes w handlers b s f callers frames) (result : Except E (k.Ret V)) :
    ∃ w', w.finish b (fun promise => promise.store k result) = .ok w' ∧ w'.log = w.log ∧ w'.started = w.started ∧
      w'.inflight = w.inflight ∧ w'.suspensions = w.suspensions ∧ w'.awaiters = w.awaiters ∧
      (∀ t, (w'.shims t).isSome → (w.shims t).isSome) ∧
      ∀ c f a k next, w'.heap c = some f → f.point = @Point.blocked E V S a k next → w.heap c = some f := by
  cases callers with
  | nobody =>
    have chain := at_top.chain
    cases chain with
    | root here owner promise continuation shim =>
      cases here.symm.trans at_top.here
      cases result with
      | ok r =>
        refine ⟨_, World.finish_returned at_top.here promise continuation shim, rfl, rfl, rfl, rfl, rfl, fun t held => ?_,
          fun c g a k next here _ => blocked_of_erase here⟩
        by_cases same : t = f.owner
        · subst same
          exact Option.isSome_of_eq_some shim
        · have others : (w.returned b f.owner).shims t = w.shims t := update_of_ne same ..
          rwa [others] at held
      | error e =>
        refine ⟨_, World.finish_threw at_top.here promise continuation shim, rfl, rfl, rfl, rfl, rfl, fun _ held => held,
          fun c g a k next here point => blocked_of_set (by rintro _ _ _ ⟨⟩) here point⟩
  | caller next outer =>
    have chain := at_top.chain
    cases chain with
    | child here owner promise continuation parent waits older inner =>
      cases here.symm.trans at_top.here
      refine ⟨_, World.finish_caller result at_top.here promise continuation parent waits (Nat.ne_of_lt older), rfl, rfl,
        rfl, rfl, rfl, fun _ held => held, fun c g a k next here point => ?_⟩
      exact blocked_of_set (by rintro _ _ _ ⟨⟩) (blocked_of_erase here) point

theorem Follows.execute_effect (follows : Follows code w handlers) (alive : w.aborted = false) {x : Active S}
    (top : w.stack = x :: rest) (move : w.execute code x = .ok w') : Effect w w' .execute := by
  obtain ⟨b, k, s⟩ := x
  obtain ⟨f, callers, frames, at_top⟩ := follows.represents.executes alive (top ▸ List.mem_cons_self)
  have found : w.frame b = .ok f := by rw [World.frame, at_top.here]
  have shim := at_top.chain.shim
  have free : ∀ op, (w.events f.owner).getLast? ≠ some (.asks op) := by
    intro op last
    have asks := (follows.asked at_top.owner op).mp last
    rw [at_top.handler] at asks
    cases asks
  have apart := Nat.ne_of_lt (follows.represents.made at_top.here)
  have ended : ∀ (result : Except E (k.Ret V)) w',
      (w.note f.owner .silent).finish b (fun promise => promise.store k result) = .ok w' → Effect w w' .execute := by
    intro result w' done
    obtain ⟨_, done', log, started, inflight, suspensions, awaiters, shims, heap⟩ :=
      (at_top.note (t := f.owner) (e := .silent)).finish result
    cases done'.symm.trans done
    exact .goes shim free log (by simp) (by simp) (started.trans (List.append_nil _).symm) inflight suspensions
      (fun t' _ => shims t') fun _ _ _ awaits => awaits.back awaiters heap
  simp only [World.execute, found, bind, Except.bind] at move
  cases act : code k s with
  | ret r =>
    rw [act] at move
    exact ended (.ok r) _ move
  | throw e =>
    rw [act] at move
    exact ended (.error e) _ move
  | await child go =>
    rw [act] at move
    cases (World.await_eq (w := w.note f.owner .silent) at_top.here apart).symm.trans move
    refine .goes shim free rfl (by simp) (by simp) (List.append_nil _).symm rfl rfl (fun _ _ held => held)
      fun _ _ _ awaits => awaits.back rfl fun c g a k' next here point => ?_
    exact blocked_of_set (by rintro _ _ _ ⟨⟩) (blocked_of_set (by rintro _ _ _ ⟨⟩) here point) point
  | io op go =>
    rw [act] at move
    cases (World.suspend_eq (w := w.note f.owner (.asks op)) at_top.here).symm.trans move
    refine .asks shim free rfl rfl rfl rfl rfl fun t' a awaiter awaits => ?_
    obtain ⟨made, g, k', next, here, owner, point⟩ := awaits
    by_cases new : a = w.suspensions
    · subst new
      cases (update_self w.suspensions _ w.awaiters).symm.trans made
      cases (update_self b _ w.heap).symm.trans here
      exact Or.inr ⟨rfl, owner.symm, rfl⟩
    · refine Or.inl ⟨new, (update_of_ne new ..).symm.trans made, g, k', next, ?_, owner, point⟩
      by_cases same : awaiter.handle = b
      · have here : update w.heap b _ awaiter.handle = some g := here
        rw [same, update_self] at here
        cases here
        cases point
        exact absurd rfl new
      · exact (update_of_ne same ..).symm.trans here
  | spawn task go =>
    rw [act] at move
    cases (World.spawn_eq task).symm.trans move
    refine .goes shim free rfl (by simp) (by simp) rfl rfl rfl (fun t' below held => ?_)
      fun _ _ _ awaits => awaits.back rfl fun c g a k' next here point => ?_
    · have others : update w.shims w.started.length (some w.frames) t' = w.shims t' :=
        update_of_ne (Nat.ne_of_lt below) ..
      exact others ▸ held
    · exact blocked_of_set (by rintro _ _ _ ⟨⟩) here point

theorem Follows.turn_effect (follows : Follows code w handlers) (alive : w.aborted = false) {others : List Nat}
    (ready : w.readyQueue = b :: others) (move : World.resume { w with readyQueue := others } b = .ok w') :
    Effect w w' .turn := by
  obtain ⟨f, a, k, next, here, point⟩ := follows.represents.queued.ready b (ready ▸ List.mem_cons_self)
  obtain ⟨awaiter, callers, frames, waits⟩ := follows.represents.waits alive here point
  have landed := (waits.place.resolve_left fun flying => flying.2 (ready ▸ List.mem_cons_self)).1
  cases (World.resume_eq here point waits.made).symm.trans move
  have awaits : w.Awaits f.owner a awaiter := ⟨waits.made, f, k, next, waits.handle ▸ here, rfl, point⟩
  refine .turn awaits landed rfl rfl rfl rfl rfl fun t' a' awaiter' awaits' => ?_
  obtain ⟨made, g, k', next', here', owner, point'⟩ := awaits'
  have other : a' ≠ a := by
    rintro rfl
    cases (update_self a' _ w.awaiters).symm.trans made
  refine ⟨other, (update_of_ne other ..).symm.trans made, g, k', next', ?_, owner, point'⟩
  exact blocked_of_set (by rintro _ _ _ ⟨⟩) here' point'

theorem Follows.complete_effect (follows : Follows code w handlers) (inside : a ∈ w.inflight) {r : Answer}
    (move : World.onComplete { w with inflight := w.inflight.erase a } a r = .ok w') :
    Effect w w' (.complete a r) := by
  obtain ⟨awaiter, f, k, next, made, here, point⟩ := follows.represents.queued.inflight a inside
  cases (World.onComplete_eq made here point).symm.trans move
  refine .complete ⟨made, f, k, next, here, rfl, point⟩ inside rfl rfl rfl rfl rfl fun t' a' awaiter' awaits' => ?_
  obtain ⟨made', g, k', next', here', owner, point'⟩ := awaits'
  by_cases same : a' = a
  · subst same
    cases (update_self a' _ w.awaiters).symm.trans made'
    cases here.symm.trans here'
    exact Or.inr ⟨rfl, owner.symm, rfl⟩
  · exact Or.inl ⟨same, (update_of_ne same ..).symm.trans made', g, k', next', here', owner, point'⟩

/-- Every step of the loop, seen from the awaiters and the log. -/
theorem Follows.effect (follows : Follows code w handlers) (sound : w.fault = none) (move : step code w m = some w') :
    Effect w w' m := by
  unfold EventLoop.step at move
  obtain ⟨running, move⟩ := Option.ite_none_left_eq_some.mp move
  have alive : w.aborted = false := by simpa [sound] using running
  cases top : w.stack with
  | cons x rest =>
    cases m <;> simp only [top, reduceCtorEq, Option.some.injEq] at move
    obtain ⟨_, done, _⟩ := follows.execute sound alive top
    rw [done, World.outcome] at move
    exact follows.execute_effect alive top (move ▸ done)
  | nil =>
    cases m with
    | execute => simp [top] at move
    | turn =>
      cases ready : w.readyQueue with
      | nil => simp [top, ready] at move
      | cons b others =>
        obtain ⟨_, done, _⟩ := follows.turn sound alive top ready
        simp only [top, ready, Option.some.injEq] at move
        rw [← top, done, World.outcome] at move
        exact follows.turn_effect alive ready (move ▸ done)
    | complete a r =>
      simp only [top] at move
      obtain ⟨inside, move⟩ := Option.ite_none_right_eq_some.mp move
      obtain ⟨_, done, _⟩ := follows.complete sound alive inside r
      rw [← top, done, World.outcome, Option.some.injEq] at move
      exact follows.complete_effect inside (move ▸ done)
    | spawn task =>
      simp only [top, World.spawn_eq, World.outcome, Option.some.injEq] at move
      subst move
      refine .spawn rfl rfl rfl rfl rfl fun _ _ _ awaits => awaits.back rfl fun c g a k' next here point => ?_
      exact blocked_of_set (by rintro _ _ _ ⟨⟩) here point

end CoroNet.EventLoop
