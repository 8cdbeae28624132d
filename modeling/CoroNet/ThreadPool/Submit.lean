import CoroNet.Scheduler.Parked
import CoroNet.ThreadPool.Tasks

namespace CoroNet.Submit

open Function Transition Scheduler CoroThreadPool

/-- The awaiter in the frame of a coroutine that waits for a submission. The
index of the variant `result_` is 0, 1 or 2. -/
structure SubmitAwaiter (m : Nat) (ε ρ : Type) where
  srcSched : Fin m
  handle : Nat
  result : Option (Except ε ρ) := none

/-- Where a worker is in the function it has taken: before the call of `fn_`,
with `result_` set, with the handle pushed but the eventfd of the scheduler not
yet written, past the write. -/
inductive Phase (m : Nat)
  | idle
  | fresh
  | set
  | posted (j : Fin m)
  | woken

/-- The schedulers and the pool. `awaits j c` is the submission coroutine `c`
of scheduler `j` waits for. Submissions are numbered; `submitted` lists where
each was made, `executed` what each execution of a submission's function came
to, and `resumed` the ends of its `co_await`, each with the scheduler and what
`await_resume` found in `result_`. A step that touches an awaiter that is gone
sets `fault`. -/
structure World (m n : Nat) (ε ρ : Type) where
  pool : CoroThreadPool.World n
  scheds : Fin m → Scheduler.World
  phases : Fin n → Phase m := fun _ => .idle
  awaiters : Nat → Option (SubmitAwaiter m ε ρ) := fun _ => none
  awaits : Fin m → Nat → Option Nat := fun _ _ => none
  submitted : List (Fin m × Nat) := []
  executed : List (Nat × Except ε ρ) := []
  resumed : List (Nat × Fin m × Option (Except ε ρ)) := []
  fault : Bool := false

/-- The coroutine on top of a scheduler's stack awaits a submission. A worker
of the pool takes a step of its loop, or a notification reaches one; a worker
calls `fn_`, which returns or throws, posts the handle, writes the eventfd, and
comes back from the function it has taken. A scheduler takes a step. -/
inductive Act (m n : Nat) (ε ρ : Type)
  | submit (j : Fin m)
  | worker (a : CoroThreadPool.Act n)
  | execute (i : Fin n) (outcome : Except ε ρ)
  | post (i : Fin n)
  | wake (i : Fin n)
  | finish (i : Fin n)
  | scheduler (j : Fin m) (a : Scheduler.Act)

variable {m n : Nat} {ε ρ : Type}

/-- The steps of the workers and notifications; there is no `stop`. -/
def inLoop : CoroThreadPool.Act n → Bool
  | .acquire _ | .test _ | .block _ | .spurious _ | .take _ | .notifyOne _ => true
  | _ => false

namespace World

def await (w : World m n ε ρ) (j : Fin m) (c : Nat) (s : Option Nat) : Fin m → Nat → Option Nat :=
  update w.awaits j (update (w.awaits j) c s)

/-- A handle somebody else may post: it does not belong to a coroutine that
waits for a submission. -/
def foreign (w : World m n ε ρ) (j : Fin m) : Handle → Bool
  | none => true
  | some c => (w.scheds j).postable (some c) && (w.awaits j c).isNone

/-- The steps of a scheduler, its coroutines and foreign threads other than
the workers of the pool, which are its foreign threads below `n`. -/
def permits (w : World m n ε ρ) (j : Fin m) : Scheduler.Act → Bool
  | .stop _ | .selfStop => false
  | .selfPost h => w.foreign j h
  | .post t h => n ≤ t && w.foreign j h
  | .postTask t _ | .wake t => n ≤ t
  | _ => true

/-- `await_suspend` of coroutine `c`: the awaiter is filled in, the coroutine
is suspended, and the function is enqueued. -/
def submit (w : World m n ε ρ) (j : Fin m) (c : Nat) (sched : Scheduler.World) (pool : CoroThreadPool.World n) :
    World m n ε ρ :=
  { w with
    pool := pool
    scheds := update w.scheds j sched
    awaiters := update w.awaiters w.submitted.length (some { srcSched := j, handle := c })
    awaits := w.await j c (some w.submitted.length)
    submitted := w.submitted ++ [(j, c)] }

/-- `await_resume`, if the coroutine a step resumes waits for a submission;
with it the awaiter ends. -/
def awaitResume (w : World m n ε ρ) (j : Fin m) : Option Nat → World m n ε ρ
  | none => w
  | some c =>
    match w.awaits j c with
    | none => w
    | some s =>
      match w.awaiters s with
      | none => { w with fault := true }
      | some aw =>
        { w with
          awaiters := update w.awaiters s none
          awaits := w.await j c none
          resumed := w.resumed ++ [(s, j, aw.result)] }

def execute (w : World m n ε ρ) (i : Fin n) (s : Nat) (outcome : Except ε ρ) : World m n ε ρ :=
  match w.awaiters s with
  | none => { w with fault := true }
  | some aw =>
    { w with
      awaiters := update w.awaiters s (some { aw with result := some outcome })
      executed := w.executed ++ [(s, outcome)]
      phases := update w.phases i .set }

/-- `src_sched_->post(handle_)` up to the write to the eventfd. -/
def post (w : World m n ε ρ) (i : Fin n) (s : Nat) : Option (World m n ε ρ) :=
  match w.awaiters s with
  | none => some { w with fault := true }
  | some aw =>
    (Scheduler.step (w.scheds aw.srcSched) (.post i (some aw.handle))).map fun sched =>
      { w with scheds := update w.scheds aw.srcSched sched, phases := update w.phases i (.posted aw.srcSched) }

end World

def step (w : World m n ε ρ) (a : Act m n ε ρ) : Option (World m n ε ρ) :=
  if w.fault then none
  else match a with
    | .submit j =>
      match (w.scheds j).stack, Scheduler.step (w.scheds j) .park, CoroThreadPool.step w.pool (.push w.submitted.length) with
      | c :: _, some sched, some pool => some (w.submit j c sched pool)
      | _, _, _ => none
    | .worker a =>
      if inLoop a then
        (CoroThreadPool.step w.pool a).map fun pool =>
          { w with pool := pool, phases := match a with | .take i => update w.phases i .fresh | _ => w.phases }
      else none
    | .execute i outcome =>
      match w.pool.workers i, w.phases i with
      | .running s, .fresh => some (w.execute i s outcome)
      | _, _ => none
    | .post i =>
      match w.pool.workers i, w.phases i with
      | .running s, .set => w.post i s
      | _, _ => none
    | .wake i =>
      match w.phases i with
      | .posted j =>
        (Scheduler.step (w.scheds j) (.wake i)).map fun sched =>
          { w with scheds := update w.scheds j sched, phases := update w.phases i .woken }
      | _ => none
    | .finish i =>
      match w.phases i with
      | .woken =>
        (CoroThreadPool.step w.pool (.finish i false)).map fun pool =>
          { w with pool := pool, phases := update w.phases i .idle }
      | _ => none
    | .scheduler j a =>
      if w.permits j a then
        (Scheduler.step (w.scheds j) a).map fun sched =>
          World.awaitResume { w with scheds := update w.scheds j sched } j ((w.scheds j).resumes a)
      else none

/-- Any schedulers and a pool that has been started. -/
def start (n : Nat) (entries : Fin m → Nat) (sqpoll : Fin m → Bool) : World m n ε ρ where
  pool := CoroThreadPool.start n
  scheds j := Scheduler.start (entries j) (sqpoll j)

/-- What the executions of a submission's function came to. -/
def World.outcomes (w : World m n ε ρ) (s : Nat) : List (Except ε ρ) :=
  w.executed.filterMap fun p => if p.1 = s then some p.2 else none

/-- The ends of the `co_await` of a submission. -/
def World.returns (w : World m n ε ρ) (s : Nat) : List (Fin m × Option (Except ε ρ)) :=
  w.resumed.filterMap fun p => if p.1 = s then some p.2 else none

variable {w w' : World m n ε ρ} {a : Act m n ε ρ}

/-- What a step can be. -/
inductive Move (w : World m n ε ρ) : Act m n ε ρ → World m n ε ρ → Prop
  | submit {j : Fin m} {c : Nat} {rest : List Nat} {sched : Scheduler.World} {pool : CoroThreadPool.World n} :
      (w.scheds j).stack = c :: rest → Scheduler.step (w.scheds j) .park = some sched →
      CoroThreadPool.step w.pool (.push w.submitted.length) = some pool → Move w (.submit j) (w.submit j c sched pool)
  | loop {b : CoroThreadPool.Act n} {pool : CoroThreadPool.World n} : inLoop b = true → (∀ i, b ≠ .take i) →
      CoroThreadPool.step w.pool b = some pool → Move w (.worker b) { w with pool := pool }
  | take {i : Fin n} {pool : CoroThreadPool.World n} : CoroThreadPool.step w.pool (.take i) = some pool →
      Move w (.worker (.take i)) { w with pool := pool, phases := update w.phases i .fresh }
  | execute {i : Fin n} {s : Nat} {outcome : Except ε ρ} : w.pool.workers i = .running s → w.phases i = .fresh →
      Move w (.execute i outcome) (w.execute i s outcome)
  | post {i : Fin n} {s : Nat} {v : World m n ε ρ} : w.pool.workers i = .running s → w.phases i = .set →
      w.post i s = some v → Move w (.post i) v
  | wake {i : Fin n} {j : Fin m} {sched : Scheduler.World} : w.phases i = .posted j →
      Scheduler.step (w.scheds j) (.wake i) = some sched →
      Move w (.wake i) { w with scheds := update w.scheds j sched, phases := update w.phases i .woken }
  | finish {i : Fin n} {pool : CoroThreadPool.World n} : w.phases i = .woken →
      CoroThreadPool.step w.pool (.finish i false) = some pool →
      Move w (.finish i) { w with pool := pool, phases := update w.phases i .idle }
  | scheduler {j : Fin m} {b : Scheduler.Act} {sched : Scheduler.World} : w.permits j b = true →
      Scheduler.step (w.scheds j) b = some sched →
      Move w (.scheduler j b)
        (World.awaitResume { w with scheds := update w.scheds j sched } j ((w.scheds j).resumes b))

theorem step_move (move : step w a = some w') : Move w a w' := by
  obtain ⟨_, move⟩ := Option.ite_none_left_eq_some.mp move
  cases a with
  | submit j =>
    simp only at move
    split at move
    next c rest sched pool top parks pushes =>
      cases Option.some.inj move
      exact .submit top parks pushes
    next => cases move
  | worker b =>
    obtain ⟨inside, move⟩ := Option.ite_none_right_eq_some.mp move
    obtain ⟨pool, moved, rfl⟩ := Option.map_eq_some_iff.mp move
    cases b with
    | take i => exact .take moved
    | _ => exact .loop inside nofun moved
  | execute i outcome =>
    simp only at move
    split at move
    next s runs here =>
      cases Option.some.inj move
      exact .execute runs here
    next => cases move
  | post i =>
    simp only at move
    split at move
    next s runs here => exact .post runs here move
    next => cases move
  | wake i =>
    simp only at move
    split at move
    next j here =>
      obtain ⟨sched, moved, rfl⟩ := Option.map_eq_some_iff.mp move
      exact .wake here moved
    next => cases move
  | finish i =>
    simp only at move
    split at move
    next here =>
      obtain ⟨pool, moved, rfl⟩ := Option.map_eq_some_iff.mp move
      exact .finish here moved
    next => cases move
  | scheduler j b =>
    obtain ⟨permitted, move⟩ := Option.ite_none_right_eq_some.mp move
    obtain ⟨sched, moved, rfl⟩ := Option.map_eq_some_iff.mp move
    exact .scheduler permitted moved

end CoroNet.Submit
