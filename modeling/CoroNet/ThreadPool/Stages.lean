import CoroNet.ThreadPool.Serving
import CoroNet.ThreadPool.Submit

namespace CoroNet.Submit

open Function Transition Scheduler CoroThreadPool

variable {m n : Nat} {ε ρ : Type} {w w' : World m n ε ρ} {a : Act m n ε ρ}

/-- How far a submission has come: in the queue, taken by a worker, executed
by it, its handle posted, its coroutine resumed. -/
inductive Stage (n : Nat)
  | queued
  | taken (i : Fin n)
  | set (i : Fin n)
  | posted
  | resumed

/-- The coroutine of a submission waits, with its handle in `cross_` or
`ready_` of its scheduler so many times. -/
structure Waiting (w : World m n ε ρ) (s : Nat) (aw : SubmitAwaiter m ε ρ) (entries : Nat) : Prop where
  awaiter : w.awaiters s = some aw
  mine : w.submitted[s]? = some (aw.srcSched, aw.handle)
  awaits : w.awaits aw.srcSched aw.handle = some s
  parked : (w.scheds aw.srcSched).coros aw.handle = .parked
  entries : (w.scheds aw.srcSched).entries aw.handle = entries
  outcomes : w.outcomes s = aw.result.toList
  returns : w.returns s = []

/-- Where a submission is and what has become of it at each stage. -/
def At (w : World m n ε ρ) (s : Nat) : Stage n → Prop
  | .queued => ∃ aw, Waiting w s aw 0 ∧ aw.result = none ∧ s ∈ w.pool.queue
  | .taken i => ∃ aw, Waiting w s aw 0 ∧ aw.result = none ∧ w.pool.workers i = .running s ∧ w.phases i = .fresh
  | .set i => ∃ aw, Waiting w s aw 0 ∧ aw.result ≠ none ∧ w.pool.workers i = .running s ∧ w.phases i = .set
  | .posted => ∃ aw, Waiting w s aw 1 ∧ aw.result ≠ none
  | .resumed => ∃ j c outcome, w.submitted[s]? = some (j, c) ∧ w.outcomes s = [outcome] ∧
      w.returns s = [(j, some outcome)]

/-- A worker and the submission it has taken. -/
def Phase.Fits (i : Fin n) : Phase m → Stage n → Prop
  | .fresh, stage => stage = .taken i
  | .set, stage => stage = .set i
  | _, stage => stage = .posted ∨ stage = .resumed

structure Inv (w : World m n ε ρ) (stage : Nat → Stage n) : Prop where
  fault : w.fault = false
  serving : Serving w.pool
  sound : ∀ j, Sound (w.scheds j)
  located : ∀ s < w.submitted.length, At w s (stage s)
  queue : ∀ s ∈ w.pool.queue, s < w.submitted.length ∧ stage s = .queued
  distinct : w.pool.queue.Nodup
  working : ∀ i s, w.pool.workers i = .running s → s < w.submitted.length ∧ (w.phases i).Fits i (stage s)
  awaited : ∀ j c s, w.awaits j c = some s →
    s < w.submitted.length ∧ stage s ≠ .resumed ∧ w.submitted[s]? = some (j, c)
  unborn : ∀ s, w.submitted.length ≤ s → w.outcomes s = [] ∧ w.returns s = []

/-- A step does not concern the coroutine of a submission. -/
structure Kept (w w' : World m n ε ρ) (s : Nat) : Prop where
  awaiter : w'.awaiters s = w.awaiters s
  submitted : w'.submitted[s]? = w.submitted[s]?
  waits : ∀ j c, w.awaits j c = some s → (w.scheds j).coros c = .parked →
    w'.awaits j c = some s ∧ (w'.scheds j).coros c = .parked ∧ (w'.scheds j).entries c = (w.scheds j).entries c
  outcomes : w'.outcomes s = w.outcomes s
  returns : w'.returns s = w.returns s

/-- Nor does it concern its place in the pool. -/
structure Same (w w' : World m n ε ρ) (s : Nat) : Prop extends Kept w w' s where
  queue : s ∈ w.pool.queue → s ∈ w'.pool.queue
  worker : ∀ i, w.pool.workers i = .running s → w.phases i = .fresh ∨ w.phases i = .set →
    w'.pool.workers i = .running s ∧ w'.phases i = w.phases i

theorem Waiting.frame {s entries : Nat} {aw : SubmitAwaiter m ε ρ} (waiting : Waiting w s aw entries)
    (kept : Kept w w' s) : Waiting w' s aw entries := by
  obtain ⟨awaits, parked, same⟩ := kept.waits _ _ waiting.awaits waiting.parked
  exact ⟨kept.awaiter.trans waiting.awaiter, kept.submitted.trans waiting.mine, awaits, parked,
    same.trans waiting.entries, kept.outcomes.trans waiting.outcomes, kept.returns.trans waiting.returns⟩

theorem At.frame {s : Nat} {stage : Stage n} (here : At w s stage) (same : Same w w' s) : At w' s stage := by
  cases stage with
  | queued =>
    obtain ⟨aw, waiting, unset, inside⟩ := here
    exact ⟨aw, waiting.frame same.toKept, unset, same.queue inside⟩
  | taken i =>
    obtain ⟨aw, waiting, unset, runs, phase⟩ := here
    obtain ⟨runs', phase'⟩ := same.worker i runs (Or.inl phase)
    exact ⟨aw, waiting.frame same.toKept, unset, runs', phase'.trans phase⟩
  | set i =>
    obtain ⟨aw, waiting, is_set, runs, phase⟩ := here
    obtain ⟨runs', phase'⟩ := same.worker i runs (Or.inr phase)
    exact ⟨aw, waiting.frame same.toKept, is_set, runs', phase'.trans phase⟩
  | posted =>
    obtain ⟨aw, waiting, is_set⟩ := here
    exact ⟨aw, waiting.frame same.toKept, is_set⟩
  | resumed =>
    obtain ⟨j, c, outcome, mine, outcomes, returns⟩ := here
    exact ⟨j, c, outcome, same.submitted.trans mine, same.outcomes.trans outcomes, same.returns.trans returns⟩

variable {stage : Nat → Stage n}

/-- The submissions other than one are where they were. -/
theorem Inv.others (inv : Inv w stage) {s : Nat} {new : Stage n} (length : w'.submitted.length = w.submitted.length)
    (mine : s < w.submitted.length → At w' s new) (same : ∀ t, t ≠ s → Same w w' t) :
    ∀ t < w'.submitted.length, At w' t (update stage s new t) := by
  intro t bound
  rw [length] at bound
  by_cases this : t = s
  · subst this
    rw [update_self]
    exact mine bound
  · rw [update_of_ne this]
    exact (inv.located t bound).frame (same t this)

theorem Inv.sound_update (inv : Inv w stage) {j : Fin m} {b : Scheduler.Act} {sched : Scheduler.World}
    (moved : Scheduler.step (w.scheds j) b = some sched)
    (posts : ∀ h, b.posts = some h → (w.scheds j).postable h = true) (i : Fin m) : Sound (update w.scheds j sched i) := by
  by_cases same : i = j
  · rw [same, update_self]
    exact (inv.sound j).step moved posts
  · rw [update_of_ne same]
    exact inv.sound i

/-- The coroutine of a submission goes on waiting while a scheduler takes a
step that neither posts nor resumes it. -/
theorem Inv.waits (inv : Inv w stage) {j : Fin m} {b : Scheduler.Act} {sched : Scheduler.World}
    (moved : Scheduler.step (w.scheds j) b = some sched) {i : Fin m} {c : Nat}
    (here : (w.scheds i).coros c = .parked)
    (quiet : i = j → b.posts ≠ some (some c) ∧ (w.scheds j).resumes b ≠ some c) :
    (update w.scheds j sched i).coros c = .parked ∧
      (update w.scheds j sched i).entries c = (w.scheds i).entries c := by
  by_cases same : i = j
  · subst same
    rw [update_self]
    obtain ⟨no_post, not_now⟩ := quiet rfl
    exact (Scheduler.step_move moved).2.waits (inv.sound i).tokens here no_post not_now
  · rw [update_of_ne same]
    exact ⟨here, rfl⟩

theorem World.await_self {j : Fin m} {c : Nat} {s : Option Nat} : w.await j c s j c = s := by
  rw [World.await, update_self, update_self]

theorem World.await_other {i j : Fin m} {c d : Nat} {s : Option Nat} (other : (i, d) ≠ (j, c)) :
    w.await j c s i d = w.awaits i d := by
  unfold World.await
  by_cases same : i = j
  · subst same
    rw [update_self, update_of_ne (fun this => other (by rw [this]))]
  · rw [update_of_ne same]

/-- What a submission at one stage asks of those who await it stays when it
goes on to another. -/
theorem Inv.awaited_update (inv : Inv w stage) {s : Nat} {new : Stage n} {j : Fin m} {c t : Nat}
    (awaits : w.awaits j c = some t) (on_the_way : new ≠ .resumed) :
    t < w.submitted.length ∧ update stage s new t ≠ .resumed ∧ w.submitted[t]? = some (j, c) := by
  obtain ⟨bound, stays, listed⟩ := inv.awaited j c t awaits
  refine ⟨bound, ?_, listed⟩
  by_cases this : t = s
  · rwa [this, update_self]
  · rwa [update_of_ne this]

/-- A submission that is not in the queue goes on to another stage. -/
theorem Inv.queue_update (inv : Inv w stage) {s t : Nat} {new : Stage n} (gone : stage s ≠ .queued)
    (inside : t ∈ w.pool.queue) : t < w.submitted.length ∧ update stage s new t = .queued := by
  obtain ⟨bound, queued⟩ := inv.queue t inside
  have other : t ≠ s := by
    rintro rfl
    exact gone queued
  exact ⟨bound, (update_of_ne other ..).trans queued⟩

/-- Only one worker has a submission, before it posts. -/
theorem Inv.alone (inv : Inv w stage) {i k : Fin n} {s : Nat} (here : stage s = .taken i ∨ stage s = .set i)
    (runs : w.pool.workers k = .running s) : k = i := by
  obtain ⟨_, fits⟩ := inv.working k s runs
  rcases here with taken | is_set
  · cases phase : w.phases k <;> simp [phase, taken, Phase.Fits] at fits
    exact fits.symm
  · cases phase : w.phases k <;> simp [phase, is_set, Phase.Fits] at fits
    exact fits.symm

theorem Inv.at_fresh (inv : Inv w stage) {i : Fin n} {s : Nat} (runs : w.pool.workers i = .running s)
    (here : w.phases i = .fresh) :
    s < w.submitted.length ∧ stage s = .taken i ∧ ∃ aw, Waiting w s aw 0 ∧ aw.result = none := by
  obtain ⟨bound, fits⟩ := inv.working i s runs
  rw [here] at fits
  have located := inv.located s bound
  rw [show stage s = .taken i from fits] at located
  obtain ⟨aw, waiting, unset, _⟩ := located
  exact ⟨bound, fits, aw, waiting, unset⟩

theorem Inv.at_set (inv : Inv w stage) {i : Fin n} {s : Nat} (runs : w.pool.workers i = .running s)
    (here : w.phases i = .set) :
    s < w.submitted.length ∧ stage s = .set i ∧ ∃ aw, Waiting w s aw 0 ∧ aw.result ≠ none := by
  obtain ⟨bound, fits⟩ := inv.working i s runs
  rw [here] at fits
  have located := inv.located s bound
  rw [show stage s = .set i from fits] at located
  obtain ⟨aw, waiting, is_set, _⟩ := located
  exact ⟨bound, fits, aw, waiting, is_set⟩

/-- A worker that has a submission takes both to the next place. -/
theorem Inv.working_step (inv : Inv w stage) {i : Fin n} {s : Nat} {phase : Phase m} {new : Stage n}
    (runs : w.pool.workers i = .running s) (here : stage s = .taken i ∨ stage s = .set i) (fits : phase.Fits i new)
    {k : Fin n} {t : Nat} (now : w.pool.workers k = .running t) :
    t < w.submitted.length ∧ (update w.phases i phase k).Fits k (update stage s new t) := by
  by_cases this : k = i
  · subst this
    cases runs.symm.trans now
    simp only [update_self]
    exact ⟨(inv.working k s runs).1, fits⟩
  · have other : t ≠ s := by
      rintro rfl
      exact this (inv.alone here now)
    simp only [update_of_ne this, update_of_ne other]
    exact inv.working k t now

theorem World.outcomes_append {s t : Nat} {outcome : Except ε ρ} (executed : w'.executed = w.executed ++ [(s, outcome)]) :
    w'.outcomes t = w.outcomes t ++ if s = t then [outcome] else [] := by
  unfold World.outcomes
  rw [executed, List.filterMap_append]
  by_cases same : s = t <;> simp [same]

theorem World.outcomes_other {s t : Nat} {outcome : Except ε ρ} (executed : w'.executed = w.executed ++ [(s, outcome)])
    (other : s ≠ t) : w'.outcomes t = w.outcomes t := by
  rw [World.outcomes_append executed, if_neg other, List.append_nil]

theorem World.returns_append {s t : Nat} {back : Fin m × Option (Except ε ρ)}
    (resumed : w'.resumed = w.resumed ++ [(s, back)]) :
    w'.returns t = w.returns t ++ if s = t then [back] else [] := by
  unfold World.returns
  rw [resumed, List.filterMap_append]
  by_cases same : s = t <;> simp [same]

theorem World.returns_other {s t : Nat} {back : Fin m × Option (Except ε ρ)}
    (resumed : w'.resumed = w.resumed ++ [(s, back)]) (other : s ≠ t) : w'.returns t = w.returns t := by
  rw [World.returns_append resumed, if_neg other, List.append_nil]

/-- A worker that has posted goes from one place to the next. -/
theorem Inv.working_update (inv : Inv w stage) {i : Fin n} {phase : Phase m}
    (before : w.phases i ≠ .fresh ∧ w.phases i ≠ .set) (after : phase ≠ .fresh ∧ phase ≠ .set) {k : Fin n} {t : Nat}
    (runs : w.pool.workers k = .running t) :
    t < w.submitted.length ∧ (update w.phases i phase k).Fits k (stage t) := by
  obtain ⟨bound, fits⟩ := inv.working k t runs
  refine ⟨bound, ?_⟩
  by_cases this : k = i
  · subst this
    rw [update_self]
    cases old : w.phases k <;> cases phase <;> simp_all [Phase.Fits]
  · rwa [update_of_ne this]

theorem World.permits_posts {j : Fin m} {b : Scheduler.Act} (permitted : w.permits j b = true) :
    ∀ h, b.posts = some h → w.foreign j h = true := by
  intro h same
  cases b with
  | selfPost =>
    cases same
    exact permitted
  | post =>
    cases same
    exact ((Bool.and_eq_true _ _).mp permitted).2
  | _ => cases same

theorem World.foreign_postable {j : Fin m} {h : Handle} (foreign : w.foreign j h = true) :
    (w.scheds j).postable h = true ∧ ∀ c, h = some c → w.awaits j c = none := by
  cases h with
  | none => exact ⟨rfl, nofun⟩
  | some c =>
    simp only [World.foreign, Bool.and_eq_true, Option.isNone_iff_eq_none] at foreign
    refine ⟨foreign.1, ?_⟩
    rintro d ⟨⟩
    exact foreign.2

end CoroNet.Submit
