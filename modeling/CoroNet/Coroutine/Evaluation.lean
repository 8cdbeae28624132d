import CoroNet.Coroutine.Nesting
import CoroNet.Coroutine.Transfer

namespace CoroNet.Coroutine

open Function Transition

variable {E V : Type} {k : Kind} {m : Machine E V}

/-- The machine after the root, frame 0, has been resumed for the first time
and has reached its final suspension. -/
def Machine.afterRoot (m : Machine E V) (continuation : Handle) (body : Body E V k) : Machine E V :=
  { m with
    heap := update m.heap 0 (some ⟨(Promise.new k).store k body.eval, continuation, .final⟩)
    frames := body.frames m.frames
    stack := []
    control := .resume continuation
    log := m.log ++ .started (.task 0) :: body.events 0 m.frames }

theorem root_runs {continuation : Handle} {body : Body E V k}
    (root : m.heap 0 = some ⟨.new k, continuation, .initial k body⟩) (control : m.control = .resume (.task 0))
    (stack : m.stack = []) (sound : m.fault = none) (fresh : ∀ n, m.frames ≤ n → m.heap n = none) :
    ∃ acts, Run step m acts (m.afterRoot continuation body) := by
  let begun : Machine E V := { m with
    heap := update m.heap 0 (some ⟨.new k, continuation, .running⟩)
    stack := [.task 0]
    control := .body 0 k body
    log := m.log ++ [.started (.task 0)] }
  have starts : step m () = some begun := by
    refine step_of_next sound ?_
    simp [Machine.next, control, Machine.resumeTask, root, stack, begun]
  have executes : begun.Executes 0 ⟨.new k, continuation, .running⟩ body := by
    have here : begun.heap 0 = some ⟨.new k, continuation, .running⟩ := by simp [begun]
    refine ⟨here, rfl, rfl, rfl, rfl, sound, fun n above => ?_⟩
    have unused := fresh n above
    have apart : n ≠ 0 := by
      rintro rfl
      exact absurd (root.symm.trans unused) (Option.some_ne_none _)
    show update m.heap 0 _ n = none
    rw [update_of_ne apart, unused]
  obtain ⟨_, inside⟩ := body.runs _ _ _ executes
  have same : begun.afterBody 0 ⟨.new k, continuation, .running⟩ body = m.afterRoot continuation body := by
    simp [Machine.afterBody, Machine.afterRoot, begun]
  exact ⟨_, same ▸ Run.trans (Run.single starts) inside⟩

/-- What happens when the handle of the root is resumed once. -/
def resumedEvents (body : Body E V k) : List (Event E V) :=
  .created (.task 0) :: .started (.task 0) :: body.events 0 1 ++ [.destroyed (.task 0)]

/-- What happens when the root is given to `spawn`, up to the point where
`spawn_shim` has its outcome. -/
def spawnedEvents (body : Body E V .void) : List (Event E V) :=
  [.created (.task 0), .created .shim, .started .shim, .awaited .shim 0, .started (.task 0)] ++ body.events 0 1 ++
    [.continued .shim 0 (Kind.void.erase body.eval)]

/-- The run of a machine ends, without undefined behaviour and with one
coroutine at most on the native stack at any moment; at the end control and
the heap are as given, and the given events have happened, each in its place. -/
structure Performs (start : Machine E V) (control : Control E V) (heap : Nat → Option (Frame E V))
    (events : List (Event E V)) : Prop where
  always : ∀ acts m, Run step start acts m → m.stack.length ≤ 1 ∧ m.fault = none
  ends : ∃ acts m, Run step start acts m ∧ m.next = none ∧ m.control = control ∧ m.heap = heap ∧ m.log = events
  ordered : events.IsChain Event.MayFollow

theorem step_of_fault {u : Unit} (broken : m.fault ≠ none) : step m u = none := by
  unfold step
  rw [if_pos (Option.isSome_iff_ne_none.mpr broken)]

theorem stuck_run {s t : Machine E V} {acts : List Unit} (stuck : step s () = none) (reach : Run step s acts t) :
    t = s := by
  induction reach with
  | start => rfl
  | next _ _ move ih =>
    rw [ih] at move
    exact absurd (stuck.symm.trans move) (Option.some_ne_none _).symm

theorem Performs.of_run {start : Machine E V} {acts : List Unit} {events : List (Event E V)} (flat : start.Flat)
    (reach : Run step start acts m) (sound : m.fault = none) (ended : m.next = none) (log : m.log = events)
    (ordered : events.IsChain Event.MayFollow) : Performs start m.control m.heap events where
  always := by
    intro acts' m' reach'
    refine ⟨run_flat flat reach', ?_⟩
    have stuck : step m () = none := by simp [step, ended]
    obtain ⟨_, rest⟩ := reach'.toEnd reach stuck
    by_contra broken
    exact broken (stuck_run (step_of_fault broken) rest ▸ sound)
  ends := ⟨_, _, reach, ended, rfl, rfl, log⟩
  ordered := ordered

/-- The events of the root with those of its driver before and after. -/
theorem Body.ordered_around (body : Body E V k) {before after : List (Event E V)}
    (first : before.IsChain Event.MayFollow) (last : after.IsChain Event.MayFollow)
    (next : ∀ e ∈ after.head?, Event.MayFollow (.finished 0) e) :
    (before ++ body.events 0 1 ++ after).IsChain Event.MayFollow := by
  refine (first.append (body.ordered_events 0 1) fun a _ => body.first_event a).append last fun a ended => ?_
  rw [List.getLast?_append, body.last_event] at ended
  rw [← Option.some.inj ended]
  exact next

/-- The heap holds the root only. -/
theorem root_alone (f : Frame E V) (n : Nat) (above : 1 ≤ n) : update (fun _ => none) 0 (some f) n = none := by
  rw [update_of_ne (Nat.ne_of_gt above)]

theorem resumed_performs (body : Body E V k) :
    Performs (resumed body) (.ended (k.erase body.eval)) (fun _ => none) (resumedEvents body) := by
  have made : (resumed body).heap 0 = some ⟨.new k, .noop, .initial k body⟩ := by simp [resumed, root]
  obtain ⟨_, whole⟩ := root_runs made rfl rfl rfl (root_alone _)
  let finished := (resumed body).afterRoot .noop body
  let read : Machine E V := { finished with control := .dropRoot (k.erase body.eval) }
  let gone : Machine E V := { read with
    heap := fun _ => none
    control := .ended (k.erase body.eval)
    log := resumedEvents body }
  have back : step finished () = some { finished with control := .returned } := step_of_next rfl rfl
  have result : step { finished with control := .returned } () = some read := by
    refine step_of_next rfl ?_
    simp [Machine.next, Machine.readRoot, finished, read, Machine.afterRoot, resumed, root, Frame.done,
      Promise.awaitResume_store]
  have drop : step read () = some gone := by
    refine step_of_next rfl ?_
    simp [Machine.next, Machine.destroy, read, gone, finished, Machine.afterRoot, resumed, root, Frame.suspended,
      resumedEvents]
  have reach := Run.trans whole (Run.trans (Run.single back) (Run.trans (Run.single result) (Run.single drop)))
  have first : [Event.created (.task 0), .started (.task 0)].IsChain (Event.MayFollow (E := E) (V := V)) := by
    simp [Event.MayFollow]
  have ordered := body.ordered_around first (.singleton (.destroyed (.task 0))) (by simp [Event.MayFollow])
  exact Performs.of_run (m := gone) rfl reach rfl rfl rfl ordered

/-- The machine in which `spawn_shim` has the outcome of its `Task`. -/
def resumedShim (body : Body E V .void) : Machine E V :=
  { spawned body with
    heap := update (fun _ => none) 0 (some ⟨(Promise.new .void).store .void body.eval, .shim, .final⟩)
    frames := body.frames 1
    stack := [.shim]
    control := Machine.shimOutcome body.eval
    shim := .running
    task := none
    param := some 0
    log := spawnedEvents body }

theorem spawned_runs (body : Body E V .void) : ∃ acts, Run step (spawned body) acts (resumedShim body) := by
  let called := (spawned body).callShim
  let waiting : Machine E V := { called with
    heap := update (fun _ => none) 0 (some ⟨.new .void, .shim, .initial .void body⟩)
    shim := .awaiting 0
    stack := []
    control := .resume (.task 0)
    log := called.log ++ [.awaited .shim 0] }
  have call : step (spawned body) () = some called := step_of_next rfl rfl
  have await : step called () = some waiting := by
    refine step_of_next rfl ?_
    simp [Machine.next, Machine.shimAwait, called, waiting, Machine.callShim, spawned, root, Frame.done]
  have made : waiting.heap 0 = some ⟨.new .void, .shim, .initial .void body⟩ := by simp [waiting]
  obtain ⟨_, whole⟩ := root_runs made rfl rfl rfl (root_alone _)
  let finished := waiting.afterRoot .shim body
  let back : Machine E V := { finished with shim := .running, stack := [.shim], control := .shimResume 0 }
  have resume : step finished () = some back := step_of_next rfl rfl
  refine ⟨_, Run.trans (Run.single call) (Run.trans (Run.single await) (Run.trans whole
    (Run.trans (Run.single resume) (Run.single (step_of_next rfl ?_)))))⟩
  simp [Machine.next, Machine.shimResume, back, finished, waiting, called, Machine.afterRoot, Machine.callShim, spawned,
    root, Promise.awaitResume_store, spawnedEvents, resumedShim]

theorem ordered_spawned (body : Body E V .void) : (spawnedEvents body).IsChain Event.MayFollow := by
  have first : [Event.created (.task 0), .created .shim, .started .shim, .awaited .shim 0, .started (.task 0)].IsChain
      (Event.MayFollow (E := E) (V := V)) := by
    simp [Event.MayFollow]
  exact body.ordered_around first (.singleton _) (by simp [Event.MayFollow])

theorem spawned_performs (body : Body E V .void) (result : body.eval = .ok ()) :
    Performs (spawned body) (.ended (.ok none)) (fun _ => none)
      (spawnedEvents body ++ [.destroyed (.task 0), .destroyed .shim]) := by
  have flat : (spawned body).Flat := rfl
  obtain ⟨_, whole⟩ := spawned_runs body
  let dropped : Machine E V := { resumedShim body with
    heap := fun _ => none
    control := .shimLeave
    log := spawnedEvents body ++ [.destroyed (.task 0)] }
  have drop : step (resumedShim body) () = some dropped := by
    refine step_of_next rfl ?_
    simp [Machine.next, resumedShim, result, Machine.shimOutcome, Machine.shimReturn, Machine.destroy, Frame.suspended,
      dropped]
  have leave : step dropped () = some dropped.shimLeave := step_of_next rfl rfl
  have back : step dropped.shimLeave () = some { dropped.shimLeave with control := .ended (.ok none) } :=
    step_of_next rfl rfl
  have reach := Run.trans whole (Run.trans (Run.single drop) (Run.trans (Run.single leave) (Run.single back)))
  have log : dropped.shimLeave.log = spawnedEvents body ++ [.destroyed (.task 0), .destroyed .shim] := by
    simp [Machine.shimLeave, dropped]
  refine Performs.of_run flat reach rfl rfl log ?_
  have last : [Event.destroyed (.task 0), .destroyed .shim].IsChain (Event.MayFollow (E := E) (V := V)) := by
    simp [Event.MayFollow]
  exact (ordered_spawned body).append last (by simp [Event.MayFollow])

/-- An exception that comes out of a spawned `Task` aborts the process. -/
theorem spawned_aborts (body : Body E V .void) {e : E} (result : body.eval = .error e) :
    Performs (spawned body) .aborted (resumedShim body).heap (spawnedEvents body) := by
  have flat : (spawned body).Flat := rfl
  obtain ⟨_, whole⟩ := spawned_runs body
  have control : (resumedShim body).control = .aborted := by simp [resumedShim, result, Machine.shimOutcome]
  have ended : (resumedShim body).next = none := by simp [Machine.next, control]
  exact control ▸ Performs.of_run flat whole rfl ended rfl (ordered_spawned body)

theorem resumed_once (body : Body E V k) (stage : Stage) (c : Nat) :
    passes (resumedEvents body) stage (.task c) = if c < body.frames 1 then 1 else 0 := by
  have grown := body.le_frames 1
  have inside := body.passes_events Nat.zero_lt_one stage c
  simp only [resumedEvents, List.cons_append, passes_cons, passes_append, inside, Event.stage]
  cases stage <;> simp <;> grind

/-- When `spawn_shim` has its outcome every child has been destroyed, and the root has not. -/
theorem spawned_once (body : Body E V .void) (stage : Stage) (c : Nat) :
    passes (spawnedEvents body) stage (.task c) =
      if c < body.frames 1 ∧ (stage = .destroyed → 0 < c) then 1 else 0 := by
  have grown := body.le_frames 1
  have inside := body.passes_events Nat.zero_lt_one stage c
  simp only [spawnedEvents, List.cons_append, List.nil_append, passes_cons, passes_append, inside, Event.stage]
  cases stage <;> simp <;> grind

theorem shim_once (body : Body E V .void) (stage : Stage) :
    passes (spawnedEvents body) stage .shim = if stage = .created ∨ stage = .started then 1 else 0 := by
  simp only [spawnedEvents, List.cons_append, List.nil_append, passes_cons, passes_append, body.passes_shim,
    Event.stage]
  cases stage <;> simp

/-- Symmetric transfer does what direct recursive evaluation does: with one
resume of the root, and with `spawn` of a `Task<void>` that lets no exception
out. One that does aborts the process when all children are gone. -/
theorem transfer_evaluates {E V : Type} :
    (∀ (k : Kind) (body : Body E V k),
      Performs (resumed body) (.ended (k.erase body.eval)) (fun _ => none) (resumedEvents body) ∧
      ∀ stage c, passes (resumedEvents body) stage (.task c) = if c < body.frames 1 then 1 else 0) ∧
    ∀ body : Body E V .void, match body.eval with
      | .ok _ =>
        Performs (spawned body) (.ended (.ok none)) (fun _ => none)
          (spawnedEvents body ++ [.destroyed (.task 0), .destroyed .shim]) ∧
        (∀ stage c, passes (spawnedEvents body ++ [.destroyed (.task 0), .destroyed .shim]) stage (.task c) =
          if c < body.frames 1 then 1 else 0) ∧
        ∀ stage, passes (spawnedEvents body ++ [.destroyed (.task 0), .destroyed .shim]) stage .shim =
          if stage = .finished then 0 else 1
      | .error _ =>
        Performs (spawned body) .aborted (resumedShim body).heap (spawnedEvents body) ∧
        ∀ c, passes (spawnedEvents body) .destroyed (.task c) = if 0 < c ∧ c < body.frames 1 then 1 else 0 := by
  refine ⟨fun k body => ⟨resumed_performs body, resumed_once body⟩, fun body => ?_⟩
  split
  next result =>
    refine ⟨spawned_performs body result, fun stage c => ?_, fun stage => ?_⟩
    · have grown := body.le_frames 1
      simp only [passes_append, passes_cons, spawned_once, Event.stage]
      cases stage <;> simp
      grind
    · simp only [passes_append, passes_cons, shim_once, Event.stage]
      cases stage <;> simp
  next e result =>
    refine ⟨spawned_aborts body result, fun c => ?_⟩
    rw [spawned_once]
    simp [and_comm]

/-- A spawned `Task` that throws is not destroyed. -/
theorem spawned_throw_remains : ∃ acts m, Run step (spawned (.throw () : Body Unit Unit .void)) acts m ∧
    m.next = none ∧ m.control = .aborted ∧ m.heap 0 ≠ none ∧ passes m.log .destroyed (.task 0) = 0 := by
  obtain ⟨acts, m, reach, ended, control, heap, log⟩ := (spawned_aborts (.throw () : Body Unit Unit .void) rfl).ends
  refine ⟨acts, m, reach, ended, control, ?_, ?_⟩
  · simp [heap, resumedShim]
  · rw [log]
    rfl

end CoroNet.Coroutine
