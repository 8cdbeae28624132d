import CoroNet.Scheduler.Pool

namespace CoroNet.TcpServer.StartStop

open Function Transition

/-- Where the call of `start()` is: past the exchange, at the `resize` of
`listen_fds_`, at socket `k`, at the boot task of the wheel or of the accept
loop of worker `k`, at thread `k`. -/
inductive Start
  | ready
  | exchanged
  | resizing
  | listening (k : Nat)
  | wheel (k : Nat)
  | acceptLoop (k : Nat)
  | threads (k : Nat)
  | returned
  | threw
deriving DecidableEq

/-- Where the call of `stop()` is whose exchange found `running_` true: at the
`shutdown` of socket `k`, before `if (pool_)`, at the `post_task` to worker
`k`, inside it after the push. -/
inductive Stop
  | ready
  | shutting (k : Nat)
  | testing
  | posting (k : Nat)
  | waking (k : Nat)
  | returned
deriving DecidableEq

/-- The task of `stop()`, `[w]() { w->stop(); }`, and the boot tasks. -/
def stopTask : Scheduler.Task := 0

def wheelTask : Scheduler.Task := 1

def acceptTask : Scheduler.Task := 2

/-- A server with `n + 1` workers, as `worker_threads_` is at least 1. `pool`
are the schedulers behind `pool_`, `started` counts the threads, `shut` are the
sockets `stop()` has shut down. -/
structure World (n : Nat) where
  entries : Nat
  sqpoll : Bool
  idle : Int
  running : Bool := false
  pool : Option (Fin (n + 1) → Scheduler.World) := none
  listenFds : List Int := []
  started : Nat := 0
  start : Start := .ready
  stop : Stop := .ready
  shut : List Int := []

/-- `start()` is called and goes on, with the answer of `make_listen_socket`
where it makes a socket; an exception leaves it. `stop()` is called and goes
on. Something happens at a scheduler. -/
inductive Act (n : Nat)
  | start
  | startNext (fd : Int)
  | raise
  | stop
  | stopNext
  | worker (i : Fin (n + 1)) (a : Scheduler.Act)

variable {n : Nat}

namespace World

/-- A step of scheduler `i`. -/
def act (w : World n) (i : Fin (n + 1)) (a : Scheduler.Act) : Option (World n) :=
  match w.pool with
  | none => none
  | some scheds => (Scheduler.step (scheds i) a).map fun s => { w with pool := some (update scheds i s) }

def queueBootTask (w : World n) (k : Nat) (f : Scheduler.Task) (next : Start) : Option (World n) :=
  if h : k < n + 1 then (w.act ⟨k, h⟩ (.queueBootTask f)).map fun w => { w with start := next } else none

def startNext (w : World n) (fd : Int) : Option (World n) :=
  match w.start with
  | .exchanged => some { w with pool := some fun _ => Scheduler.start w.entries w.sqpoll, start := .resizing }
  | .resizing => some { w with listenFds := List.replicate (n + 1) 0, start := .listening 0 }
  | .listening k =>
    if k < n + 1 then
      if 0 ≤ fd then some { w with listenFds := w.listenFds.set k fd, start := .listening (k + 1) } else none
    else some { w with start := .wheel 0 }
  | .wheel k =>
    if k < n + 1 then
      if 0 < w.idle then w.queueBootTask k wheelTask (.acceptLoop k) else some { w with start := .acceptLoop k }
    else some { w with start := .threads 0 }
  | .acceptLoop k => w.queueBootTask k acceptTask (.wheel (k + 1))
  | .threads k =>
    if k < n + 1 then some { w with started := k + 1, start := .threads (k + 1) }
    else some { w with start := .returned }
  | .ready | .returned | .threw => none

/-- The constructor of the pool and `make_listen_socket` can throw. -/
def raise (w : World n) : Option (World n) :=
  match w.start with
  | .exchanged | .listening _ => some { w with start := .threw }
  | _ => none

def stopNext (w : World n) : Option (World n) :=
  match w.stop with
  | .shutting k =>
    match w.listenFds[k]? with
    | some fd => some { w with shut := if 0 ≤ fd then w.shut ++ [fd] else w.shut, stop := .shutting (k + 1) }
    | none => some { w with stop := .testing }
  | .testing => some { w with stop := if w.pool.isSome then .posting 0 else .returned }
  | .posting k =>
    if h : k < n + 1 then (w.act ⟨k, h⟩ (.postTask 0 stopTask)).map fun w => { w with stop := .waking k }
    else some { w with stop := .returned }
  | .waking k =>
    if h : k < n + 1 then (w.act ⟨k, h⟩ (.wake 0)).map fun w => { w with stop := .posting (k + 1) } else none
  | .ready | .returned => none

end World

/-- The caller of `stop()` is the foreign thread 0 to each scheduler; only
`start()` queues boot tasks, and a worker moves once it has its thread. -/
def step (w : World n) : Act n → Option (World n)
  | .start =>
    if w.start = .ready then
      some (if w.running then { w with start := .returned } else { w with running := true, start := .exchanged })
    else none
  | .startNext fd => w.startNext fd
  | .raise => w.raise
  | .stop => some (if w.running then { w with running := false, stop := .shutting 0 } else w)
  | .stopNext => w.stopNext
  | .worker i a =>
    if SchedulerPool.byOwner a ∨ a matches .queueBootTask _ ∨ SchedulerPool.onWorker a ∧ w.started ≤ i then none
    else w.act i a

/-- A server that has been constructed. -/
def start (n entries : Nat) (sqpoll : Bool) (idle : Int) : World n := { entries, sqpoll, idle }

/-- The task of `stop()` has been queued at worker `i`. -/
def Queued (w : World n) (i : Fin (n + 1)) : Prop :=
  ∃ scheds, w.pool = some scheds ∧ ⟨some 0, stopTask⟩ ∈ (scheds i).pushedTasks

def Flagged (w : World n) (i : Fin (n + 1)) : Prop :=
  ∃ scheds, w.pool = some scheds ∧ (scheds i).stopping = true

/-- Both calls have returned and the server is not running. -/
structure Over (w : World n) : Prop where
  started : w.start = .returned
  stopped : w.stop = .returned ∨ w.stop = .ready
  down : w.running = false

/-- `stop()` gets to its `if (pool_)` only after `start()` has stored the pool. -/
def poolMade (w : World n) : Act n → Bool
  | .stopNext => w.stop ≠ .testing || w.pool.isSome
  | _ => true

variable {w w' : World n} {a : Act n} {i j : Fin (n + 1)} {acts : List (Act n)}

theorem pushedTasks_grow {s s' : Scheduler.World} {b : Scheduler.Act} (move : Scheduler.step s b = some s') :
    s.pushedTasks <+: s'.pushedTasks := by
  cases (Scheduler.step_move move).2 with
  | queueBootTask | postTask => exact List.prefix_append _ _
  | _ => exact List.prefix_refl _

theorem act_cases {b : Scheduler.Act} (moved : w.act i b = some w') :
    ∃ scheds s, w.pool = some scheds ∧ Scheduler.step (scheds i) b = some s ∧
      w' = { w with pool := some (update scheds i s) } := by
  unfold World.act at moved
  split at moved
  next => cases moved
  next scheds here =>
    obtain ⟨s, move, rfl⟩ := Option.map_eq_some_iff.mp moved
    exact ⟨scheds, s, here, move, rfl⟩

/-- A task that was queued has been queued. -/
theorem Queued.act {b : Scheduler.Act} (queued : Queued w j) (moved : w.act i b = some w') : Queued w' j := by
  obtain ⟨scheds, s, here, move, rfl⟩ := act_cases moved
  obtain ⟨_, same, member⟩ := queued
  cases here.symm.trans same
  refine ⟨_, rfl, ?_⟩
  by_cases mine : j = i
  · subst mine
    simpa only [update_self] using (pushedTasks_grow move).subset member
  · simpa only [update_of_ne mine] using member

theorem act_queued (moved : w.act i (.postTask 0 stopTask) = some w') : Queued w' i := by
  obtain ⟨scheds, s, _, move, rfl⟩ := act_cases moved
  refine ⟨_, rfl, ?_⟩
  rw [update_self]
  cases (Scheduler.step_move move).2 with
  | postTask => exact List.mem_append_right _ (List.mem_singleton_self _)
  | goto goto => cases goto
  | rearm rearms | rearmFull rearms => cases rearms

/-- What a step can be, as far as `stop()` is concerned. -/
inductive Step (w : World n) : Act n → World n → Prop
  | call : w.start = .ready → Step w .start { w with running := true, start := .exchanged }
  | callAgain : w.start = .ready → w.running = true → Step w .start { w with start := .returned }
  | build {fd : Int} : w.start = .exchanged →
      Step w (.startNext fd)
        { w with pool := some fun _ => Scheduler.start w.entries w.sqpoll, start := .resizing }
  | goOn {a : Act n} {fds : List Int} {started : Nat} {next : Start} : w.start ≠ .ready → w.start ≠ .exchanged ∨ next = .threw →
      next ≠ .ready → next ≠ .exchanged → Step w a { w with listenFds := fds, started := started, start := next }
  | boot {k : Nat} {fd : Int} {f : Scheduler.Task} {next : Start} {w' : World n} : w.start ≠ .ready →
      w.start ≠ .exchanged → next ≠ .ready → next ≠ .exchanged → w.queueBootTask k f next = some w' →
      Step w (.startNext fd) w'
  | stop : w.running = true → Step w .stop { w with running := false, stop := .shutting 0 }
  | stopAgain : Step w .stop w
  | shut {k : Nat} {fds : List Int} {next : Stop} : w.stop = .shutting k → next = .shutting (k + 1) ∨ next = .testing →
      Step w .stopNext { w with shut := fds, stop := next }
  | test : w.stop = .testing → Step w .stopNext { w with stop := if w.pool.isSome then .posting 0 else .returned }
  | post {i : Fin (n + 1)} {w' : World n} : w.stop = .posting i → w.act i (.postTask 0 stopTask) = some w' →
      Step w .stopNext { w' with stop := .waking i }
  | posted {k : Nat} : w.stop = .posting k → n < k → Step w .stopNext { w with stop := .returned }
  | wake {i : Fin (n + 1)} {w' : World n} : w.stop = .waking i → w.act i (.wake 0) = some w' →
      Step w .stopNext { w' with stop := .posting (i + 1) }
  | worker {i : Fin (n + 1)} {b : Scheduler.Act} {w' : World n} : w.act i b = some w' → Step w (.worker i b) w'

theorem startNext_step {fd : Int} (move : w.startNext fd = some w') : Step w (.startNext fd) w' := by
  unfold World.startNext at move
  split at move
  next here =>
    cases Option.some.inj move
    exact .build here
  next here =>
    cases Option.some.inj move
    exact .goOn (by simp [here]) (by simp [here]) (by simp) (by simp)
  next k here =>
    split_ifs at move <;> cases Option.some.inj move <;>
      exact .goOn (by simp [here]) (by simp [here]) (by simp) (by simp)
  next k here =>
    split_ifs at move
    · exact .boot (by simp [here]) (by simp [here]) (by simp) (by simp) move
    all_goals
      cases Option.some.inj move
      exact .goOn (by simp [here]) (by simp [here]) (by simp) (by simp)
  next k here => exact .boot (by simp [here]) (by simp [here]) (by simp) (by simp) move
  next k here =>
    split_ifs at move <;> cases Option.some.inj move <;>
      exact .goOn (by simp [here]) (by simp [here]) (by simp) (by simp)
  all_goals cases move

theorem stopNext_step (move : w.stopNext = some w') : Step w .stopNext w' := by
  unfold World.stopNext at move
  split at move
  next k here =>
    split at move <;> cases Option.some.inj move
    · exact .shut here (Or.inl rfl)
    · exact .shut here (Or.inr rfl)
  next here =>
    cases Option.some.inj move
    exact .test here
  next k here =>
    split at move
    next below =>
      obtain ⟨u, moved, rfl⟩ := Option.map_eq_some_iff.mp move
      exact .post (i := ⟨k, below⟩) here moved
    next beyond =>
      cases Option.some.inj move
      exact .posted here (by omega)
  next k here =>
    split at move
    next below =>
      obtain ⟨u, moved, rfl⟩ := Option.map_eq_some_iff.mp move
      exact .wake (i := ⟨k, below⟩) here moved
    next => cases move
  all_goals cases move

theorem step_cases (move : step w a = some w') : Step w a w' := by
  cases a with
  | start =>
    obtain ⟨here, move⟩ := Option.ite_none_right_eq_some.mp move
    cases Option.some.inj move
    split_ifs with running
    · exact .callAgain here running
    · exact .call here
  | startNext fd => exact startNext_step move
  | raise =>
    simp only [step, World.raise] at move
    split at move
    next here =>
      cases Option.some.inj move
      exact .goOn (by simp [here]) (Or.inr rfl) (by simp) (by simp)
    next here =>
      cases Option.some.inj move
      exact .goOn (by simp [here]) (Or.inr rfl) (by simp) (by simp)
    next => cases move
  | stop =>
    cases Option.some.inj move
    split_ifs with running
    · exact .stop running
    · exact .stopAgain
  | stopNext => exact stopNext_step move
  | worker i b =>
    obtain ⟨_, move⟩ := Option.ite_none_left_eq_some.mp move
    exact .worker move

end CoroNet.TcpServer.StartStop
