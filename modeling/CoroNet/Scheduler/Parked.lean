import CoroNet.Scheduler.CrossQueue
import CoroNet.Scheduler.Suspended

namespace CoroNet.Scheduler

open Function Transition

variable {w w' : World} {a : Act} {c : Nat}

/-- The entries of a coroutine in `ready_` and `cross_`. -/
def World.entries (w : World) (c : Nat) : Nat := w.ready c + w.cross c

/-- The coroutine that waits for a post and is resumed by a step. -/
def World.resumes (w : World) (a : Act) : Option Nat :=
  match a, w.pc, w.readyQueue with
  | .next, .ready, some c :: _ => if w.coros c = .parked then some c else none
  | _, _, _ => none

theorem World.resumes_some (resumes : w.resumes a = some c) :
    a = .next ∧ w.pc = .ready ∧ w.coros c = .parked ∧ ∃ rest, w.readyQueue = some c :: rest := by
  unfold World.resumes at resumes
  split at resumes
  next d rest here queue =>
    obtain ⟨waits, same⟩ := Option.ite_none_right_eq_some.mp resumes
    cases Option.some.inj same
    exact ⟨rfl, here, waits, rest, queue⟩
  next => cases resumes

theorem World.resumes_next {rest : List Handle} (here : w.pc = .ready) (queue : w.readyQueue = some c :: rest)
    (waits : w.coros c = .parked) : w.resumes .next = some c := by
  simp [World.resumes, here, queue, waits]

/-- The handle a step posts. -/
def Act.posts : Act → Option Handle
  | .selfPost h | .post _ h => some h
  | _ => none

theorem World.ready_pop {h : Handle} {rest : List Handle} (queue : w.readyQueue = h :: rest) (other : h ≠ some c) :
    rest.count (some c) = w.ready c := by
  rw [World.ready_cons queue c, if_neg other, Nat.add_zero]

theorem World.entries_pop {d : Nat} {rest : List Handle} (queue : w.readyQueue = some d :: rest) (other : d ≠ c) :
    rest.count (some c) + w.cross c = w.entries c :=
  congrArg (· + w.cross c) (World.ready_pop queue (by simpa using other))

/-- A coroutine that waits for a post goes on waiting and keeps its entry, if
it has one, until it is resumed. -/
theorem Move.waits (move : Move w a w') (tokens : Tokens w) (here : w.coros c = .parked)
    (no_post : a.posts ≠ some (some c)) (not_now : w.resumes a ≠ some c) :
    w'.coros c = .parked ∧ w'.entries c = w.entries c := by
  cases move with
  | drain =>
    refine ⟨here, ?_⟩
    have resumable : w.resumable (some c) = true := by simp [World.resumable, here]
    have cross : w.drain.cross c = 0 := rfl
    unfold World.entries
    rw [cross]
    simp only [World.ready, World.cross, World.drain, List.count_append, List.count_filter resumable, Nat.add_zero]
  | @skip h rest _ queue ended =>
    refine ⟨here, congrArg (· + w.cross c) (World.ready_pop queue ?_)⟩
    rintro rfl
    simp [World.resumable, here] at ended
  | @resumeIo d _ _ rest _ queue waits =>
    have other : d ≠ c := by
      rintro rfl
      simp [here] at waits
    exact ⟨(update_of_ne other.symm ..).trans here, World.entries_pop queue other⟩
  | @resumeFreed d _ rest _ queue waits =>
    have other : d ≠ c := by
      rintro rfl
      simp [here] at waits
    exact ⟨here, World.entries_pop queue other⟩
  | @resumeBad d rest _ queue bad =>
    have other : d ≠ c := by
      rintro rfl
      simp [here] at bad
    exact ⟨here, World.entries_pop queue other⟩
  | @resumeParked d rest at_ready queue waits =>
    have other : d ≠ c := by
      rintro rfl
      exact not_now (World.resumes_next at_ready queue waits)
    exact ⟨(update_of_ne other.symm ..).trans here, World.entries_pop queue other⟩
  | @completion _ _ b _ awaiter _ _ _ _ mine =>
    refine ⟨here, congrArg (· + w.cross c) ?_⟩
    have other : awaiter.handle ≠ c := tokens.awaiter_ne (by simp [here]) mine
    rw [if_pos (tokens.resumable mine)]
    rw [World.ready_append (w := w) rfl, if_neg (by simpa using other), Nat.add_zero]
  | @spawn d _ fresh =>
    have other : d ≠ c := by
      rintro rfl
      simp [here] at fresh
    exact ⟨(update_of_ne other.symm ..).trans here, rfl⟩
  | @suspend _ d _ _ top | @park d _ _ top | @finish d _ _ top =>
    have other : d ≠ c := by
      rintro rfl
      simp [tokens.top_running top] at here
    exact ⟨(update_of_ne other.symm ..).trans here, rfl⟩
  | @selfPost h =>
    have other : h ≠ some c := fun same => no_post (congrArg some same)
    refine ⟨here, congrArg (· + w.cross c) ?_⟩
    rw [World.ready_append (w := w) rfl, if_neg other, Nat.add_zero]
  | @post _ h =>
    have other : h ≠ some c := fun same => no_post (congrArg some same)
    refine ⟨here, congrArg (w.ready c + ·) ?_⟩
    rw [World.cross_append (w := w) rfl, if_neg other, Nat.add_zero]
  | _ => exact ⟨here, rfl⟩

/-- A post from another thread adds one entry of the coroutine, and none of others. -/
theorem Move.post_entries {t : Nat} (move : Move w (.post t (some c)) w') :
    w'.coros = w.coros ∧ w'.entries c = w.entries c + 1 := by
  cases move with
  | post =>
    refine ⟨rfl, ?_⟩
    unfold World.entries
    rw [World.cross_append (w := w) rfl, if_pos rfl]
    rfl
  | goto goto => cases goto
  | rearm rearms | rearmFull rearms => cases rearms

/-- A coroutine on top of the stack that waits for a post has no entry yet. -/
theorem Tokens.park (tokens : Tokens w) {rest : List Nat} (top : w.stack = c :: rest) (move : Move w .park w') :
    w'.coros c = .parked ∧ w'.entries c = 0 ∧
      ∀ d, w.coros d = .parked → w'.coros d = .parked ∧ w'.entries d = w.entries d := by
  cases move with
  | park user mine =>
    rw [top] at mine
    cases mine
    have running := tokens.top_running top
    obtain ⟨ready, cross⟩ := (tokens.held c).busy (Or.inr running)
    refine ⟨update_self .., ?_, fun d waits => ⟨?_, rfl⟩⟩
    · show w.ready c + w.cross c = 0
      omega
    · have other : d ≠ c := by
        rintro rfl
        simp [running] at waits
      exact (update_of_ne other ..).trans waits
  | goto goto => cases goto
  | rearm rearms | rearmFull rearms => cases rearms

/-- What holds of a scheduler to which only handles are posted that may be;
its undefined behaviour is an `await_suspend` that gets no SQE. -/
structure Sound (w : World) : Prop where
  within : w.pc.Within w.ring.cq.length
  tokens : Tokens w
  roused : Roused w
  fault : w.fault = none ∨ w.fault = some .nullSqe

theorem Sound.start (entries : Nat) (sqpoll : Bool) : Sound (start entries sqpoll) :=
  ⟨trivial, .start entries sqpoll, .early rfl nofun, Or.inl rfl⟩

theorem Sound.step (sound : Sound w) (moved : step w a = some w')
    (posts : ∀ h, a.posts = some h → w.postable h = true) : Sound w' := by
  obtain ⟨alive, move⟩ := step_move moved
  have within := move.within sound.within
  have roused := move.roused sound.roused
  by_cases met : orderly w a = true
  · have sane := move.alive met sound.tokens alive
    exact ⟨within, move.tokens sound.within met sane sound.tokens, roused, Or.inl sane⟩
  · have tokens := sound.tokens
    cases move with
    | suspendNull =>
      exact ⟨within, ⟨tokens.held, tokens.awaiter, tokens.freed, tokens.nodup, tokens.running, tokens.idle⟩, roused,
        Or.inr rfl⟩
    | suspend _ _ room => exact absurd (decide_eq_true room) met
    | selfPost | post => exact absurd (posts _ rfl) met
    | goto goto => cases goto <;> exact absurd rfl met
    | rearm rearms | rearmFull rearms => cases rearms <;> exact absurd rfl met
    | _ => exact absurd rfl met

end CoroNet.Scheduler
