import CoroNet.Server.Listen
import Mathlib.Data.List.Perm.Basic

namespace CoroNet.TcpServer.FailedStart

/-- The `std::system_error` of `start()`, by the call that has failed. -/
inductive Exn
  | ioUringQueueInitParams
  | timerfdCreate
  | socket
  | bind
  | listen
deriving DecidableEq

/-- The descriptors of a `Scheduler`: of its ring, `wake_fd_` and `timerfd_`. -/
structure Scheduler where
  ringFd : Int
  wakeFd : Int
  timerfd : Int
deriving DecidableEq

/-- A server, the descriptors of the process that its calls have opened and
not closed, and how many system calls were made, worker threads created and
sockets set to listen. -/
structure World where
  workerThreads : Nat
  running : Bool := false
  pool : Option (List Scheduler) := none
  listenFds : List Int := []
  openFds : List Int := []
  calls : Nat := 0
  spawned : Nat := 0
  listening : Nat := 0
deriving DecidableEq

def make (workerThreads : Nat) : World := { workerThreads := if workerThreads = 0 then 1 else workerThreads }

/-- C++ code with exceptions; what it did before it throws remains. -/
abbrev Code := EStateM Exn World

/-- The answers of the system calls, by their number; a negative one is an error. -/
abbrev Env := Nat → Int

/-- A system call without a descriptor in its answer. -/
def call (env : Env) : Code Int := fun w => .ok (env w.calls) { w with calls := w.calls + 1 }

/-- A system call that opens a descriptor. For a ring it stands for all
candidates of the constructor of `IoUring`. -/
def opens (env : Env) : Code Int := fun w =>
  .ok (env w.calls)
    { w with
      calls := w.calls + 1
      openFds := if 0 ≤ env w.calls then w.openFds ++ [env w.calls] else w.openFds }

def close (fd : Int) : Code Unit := fun w => .ok () { w with openFds := w.openFds.erase fd }

/-- The constructor. When `timerfd_create` fails the ring goes with `ring_`,
while nothing closes `wake_fd_`. -/
def Scheduler.construct (env : Env) : Code Scheduler := do
  let ringFd ← opens env
  if ringFd < 0 then throw .ioUringQueueInitParams
  let wakeFd ← opens env
  let timerfd ← opens env
  if timerfd < 0 then
    close ringFd
    throw .timerfdCreate
  return ⟨ringFd, wakeFd, timerfd⟩

def Scheduler.destroy (s : Scheduler) : Code Unit := do
  close s.timerfd
  if 0 ≤ s.wakeFd then close s.wakeFd
  close s.ringFd

def destroyAll : List Scheduler → Code Unit
  | [] => return
  | s :: rest => do
    s.destroy
    destroyAll rest

/-- The loop of the constructor of `SchedulerPool`. An exception destroys the
schedulers made before. -/
def constructPool (env : Env) : Nat → List Scheduler → Code (List Scheduler)
  | 0, schedulers => return schedulers
  | n + 1, schedulers => fun w =>
    match Scheduler.construct env w with
    | .ok s w => constructPool env n (schedulers ++ [s]) w
    | .error e w => (do destroyAll schedulers; throw e : Code (List Scheduler)) w

def makeListenSocket (env : Env) : Code Int := do
  let fd ← opens env
  if fd < 0 then throw .socket
  let bound ← call env
  if bound < 0 then
    close fd
    throw .bind
  let listens ← call env
  if listens < 0 then
    close fd
    throw .listen
  modify fun w => { w with listening := w.listening + 1 }
  return fd

/-- The loop over `listen_fds_`, with `n` sockets to go from socket `i` on. -/
def listenAll (env : Env) (i : Nat) : Nat → Code Unit
  | 0 => return
  | n + 1 => do
    let fd ← makeListenSocket env
    modify fun w => { w with listenFds := w.listenFds.set i fd }
    listenAll env (i + 1) n

/-- `start()` past the exchange. The assignment to `pool_` destroys a pool of an
earlier start. -/
def bringUp (env : Env) : Code Unit := do
  let w ← get
  let schedulers ← constructPool env w.workerThreads []
  destroyAll (w.pool.getD [])
  modify fun w => { w with pool := some schedulers, listenFds := Sockets.resize w.listenFds schedulers.length }
  listenAll env 0 schedulers.length
  modify fun w => { w with spawned := w.spawned + schedulers.length }

/-- `start()`. -/
def start (env : Env) : Code Unit := fun w => if w.running then .ok () w else bringUp env { w with running := true }

/-- A `start()` whose system calls all succeed brings up all workers, each
with a listening socket of its own. -/
def BringsUp (w : World) : Prop :=
  ∀ env : Env, (∀ i, 0 ≤ env i) → ∃ w', start env w = .ok () w' ∧ w'.running = true ∧
    w'.spawned = w.spawned + w.workerThreads ∧ w'.listening = w.listening + w.workerThreads

/-- The server is as it was before the call that has thrown. -/
structure Undone (before after : World) : Prop where
  running : after.running = false
  descriptors : ∀ fd, after.openFds.count fd ≤ before.openFds.count fd
  restarts : BringsUp after

variable {env : Env} {w w' : World} {schedulers : List Scheduler} {s : Scheduler} {e : Exn} {fd : Int} {n i : Nat}

/-- What no step of `start()` but the last ones changes. -/
structure Frame (w w' : World) : Prop where
  workerThreads : w'.workerThreads = w.workerThreads
  running : w'.running = w.running
  pool : w'.pool = w.pool
  spawned : w'.spawned = w.spawned

/-- All but the descriptors and the number of calls is as before. -/
structure Same (w w' : World) : Prop extends Frame w w' where
  listenFds : w'.listenFds = w.listenFds
  listening : w'.listening = w.listening

theorem Frame.trans {w'' : World} (first : Frame w w') (second : Frame w' w'') : Frame w w'' :=
  ⟨second.workerThreads.trans first.workerThreads, second.running.trans first.running, second.pool.trans first.pool,
    second.spawned.trans first.spawned⟩

theorem Same.refl (w : World) : Same w w := ⟨⟨rfl, rfl, rfl, rfl⟩, rfl, rfl⟩

theorem Same.trans {w'' : World} (first : Same w w') (second : Same w' w'') : Same w w'' :=
  ⟨first.toFrame.trans second.toFrame, second.listenFds.trans first.listenFds, second.listening.trans first.listening⟩

/-- The descriptors that the destructor closes. -/
def Scheduler.fds (s : Scheduler) : List Int := s.ringFd :: (if 0 ≤ s.wakeFd then [s.wakeFd] else []) ++ [s.timerfd]

theorem opens_eq (env : Env) (w : World) : ∃ w', opens env w = .ok (env w.calls) w' ∧ Same w w' ∧
    w'.openFds = w.openFds ++ if 0 ≤ env w.calls then [env w.calls] else [] := by
  refine ⟨_, rfl, ⟨⟨rfl, rfl, rfl, rfl⟩, rfl, rfl⟩, ?_⟩
  by_cases opened : 0 ≤ env w.calls <;> simp [opened]

theorem call_eq (env : Env) (w : World) : ∃ w', call env w = .ok (env w.calls) w' ∧ Same w w' ∧
    w'.openFds = w.openFds :=
  ⟨_, rfl, ⟨⟨rfl, rfl, rfl, rfl⟩, rfl, rfl⟩, rfl⟩

theorem close_eq (fd : Int) (w : World) : ∃ w', close fd w = .ok () w' ∧ Same w w' ∧ w'.openFds = w.openFds.erase fd :=
  ⟨_, rfl, ⟨⟨rfl, rfl, rfl, rfl⟩, rfl, rfl⟩, rfl⟩

theorem bind_eq {α β : Type} (m : Code α) (f : α → Code β) (w : World) :
    (m >>= f) w = match m w with
      | .ok a w => f a w
      | .error e w => .error e w := by
  change EStateM.bind m f w = _
  unfold EStateM.bind
  cases m w <;> rfl

theorem pure_eq {α : Type} (a : α) (w : World) : (pure a : Code α) w = .ok a w := rfl

theorem throw_eq {α : Type} (e : Exn) (w : World) : (throw e : Code α) w = .error e w := rfl

theorem getState_eq (w : World) : (get : Code World) w = .ok w w := rfl

theorem modify_eq (f : World → World) (w : World) : (modify f : Code Unit) w = .ok () (f w) := rfl

/-- What is closed does not remain open, wherever it stands. -/
theorem erase_middle {fds before after : List Int} (held : fds.Perm (before ++ fd :: after)) :
    (fds.erase fd).Perm (before ++ after) := by
  have closed := (held.trans List.perm_middle).erase fd
  rwa [List.erase_cons_head] at closed

theorem construct_spec (env : Env) (w : World) :
    (∃ s w', Scheduler.construct env w = .ok s w' ∧ Same w w' ∧ w'.openFds = w.openFds ++ s.fds) ∨
    (∃ e w', Scheduler.construct env w = .error e w' ∧ Same w w' ∧ (∃ k, env k < 0) ∧
      ∃ leaked : List Int, leaked.length ≤ 1 ∧ w'.openFds.Perm (w.openFds ++ leaked)) := by
  obtain ⟨w₁, ring, same₁, fds₁⟩ := opens_eq env w
  obtain ⟨w₂, wake, same₂, fds₂⟩ := opens_eq env w₁
  obtain ⟨w₃, timer, same₃, fds₃⟩ := opens_eq env w₂
  obtain ⟨w₄, closed, same₄, fds₄⟩ := close_eq (env w.calls) w₃
  by_cases no_ring : env w.calls < 0
  · refine Or.inr ⟨.ioUringQueueInitParams, w₁, ?_, same₁, ⟨_, no_ring⟩, [], Nat.zero_le _, ?_⟩
    · simp only [Scheduler.construct, bind_eq, ring, if_pos no_ring, throw_eq]
    · rw [fds₁, if_neg (by omega)]
  by_cases no_timer : env w₂.calls < 0
  · refine Or.inr ⟨.timerfdCreate, w₄, ?_, ((same₁.trans same₂).trans same₃).trans same₄, ⟨_, no_timer⟩,
      if 0 ≤ env w₁.calls then [env w₁.calls] else [], ?_, ?_⟩
    · simp only [Scheduler.construct, bind_eq, ring, if_neg no_ring, wake, timer, if_pos no_timer, closed, throw_eq]
    · split <;> simp
    · have held : w₃.openFds = w.openFds ++ env w.calls :: if 0 ≤ env w₁.calls then [env w₁.calls] else [] := by
        simp [fds₃, fds₂, fds₁, Int.not_lt.mp no_ring, Int.not_le.mpr no_timer]
      rw [fds₄, held]
      exact erase_middle (List.Perm.refl _)
  · refine Or.inl ⟨⟨env w.calls, env w₁.calls, env w₂.calls⟩, w₃, ?_, (same₁.trans same₂).trans same₃, ?_⟩
    · simp only [Scheduler.construct, bind_eq, ring, if_neg no_ring, wake, timer, if_neg no_timer, pure_eq]
    · simp [fds₃, fds₂, fds₁, Scheduler.fds, Int.not_lt.mp no_ring, Int.not_lt.mp no_timer]

theorem destroy_spec (s : Scheduler) (w : World) : ∃ w', s.destroy w = .ok () w' ∧ Same w w' ∧
    ∀ base : List Int, w.openFds.Perm (base ++ s.fds) → w'.openFds.Perm base := by
  obtain ⟨w₁, timer, same₁, fds₁⟩ := close_eq s.timerfd w
  obtain ⟨w₂, wake, same₂, fds₂⟩ := close_eq s.wakeFd w₁
  by_cases waked : 0 ≤ s.wakeFd
  · obtain ⟨w₃, ring, same₃, fds₃⟩ := close_eq s.ringFd w₂
    refine ⟨w₃, ?_, (same₁.trans same₂).trans same₃, fun base held => ?_⟩
    · simp only [Scheduler.destroy, bind_eq, timer, if_pos waked, wake, ring]
    · rw [Scheduler.fds, if_pos waked] at held
      have without_timer : (w.openFds.erase s.timerfd).Perm (base ++ [s.ringFd, s.wakeFd] ++ []) :=
        erase_middle (by simpa using held)
      have without_wake : (w₁.openFds.erase s.wakeFd).Perm (base ++ [s.ringFd] ++ []) :=
        erase_middle (by simpa [fds₁] using without_timer)
      have without_ring : (w₂.openFds.erase s.ringFd).Perm (base ++ []) :=
        erase_middle (by simpa [fds₂] using without_wake)
      simpa [fds₃] using without_ring
  · obtain ⟨w₃, ring, same₃, fds₃⟩ := close_eq s.ringFd w₁
    refine ⟨w₃, ?_, same₁.trans same₃, fun base held => ?_⟩
    · simp only [Scheduler.destroy, bind_eq, timer, if_neg waked, ring]
    · rw [Scheduler.fds, if_neg waked] at held
      have without_timer : (w.openFds.erase s.timerfd).Perm (base ++ [s.ringFd] ++ []) :=
        erase_middle (by simpa using held)
      have without_ring : (w₁.openFds.erase s.ringFd).Perm (base ++ []) :=
        erase_middle (by simpa [fds₁] using without_timer)
      simpa [fds₃] using without_ring

theorem destroyAll_spec (schedulers : List Scheduler) (w : World) : ∃ w', destroyAll schedulers w = .ok () w' ∧
    Same w w' ∧ ∀ base : List Int, w.openFds.Perm (base ++ schedulers.flatMap Scheduler.fds) → w'.openFds.Perm base := by
  induction schedulers generalizing w with
  | nil => exact ⟨w, rfl, Same.refl w, fun base held => by simpa using held⟩
  | cons s rest ih =>
    obtain ⟨w₁, first, same₁, fds₁⟩ := destroy_spec s w
    obtain ⟨w₂, others, same₂, fds₂⟩ := ih w₁
    refine ⟨w₂, ?_, same₁.trans same₂, fun base held => fds₂ base (fds₁ _ ?_)⟩
    · simp only [destroyAll, bind_eq, first, others]
    · rw [List.flatMap_cons] at held
      exact held.trans (by
        rw [List.append_assoc]
        exact (List.perm_append_comm).append_left base)

/-- The pool is made, or the schedulers made before the exception are gone and
at most an eventfd is left behind. -/
theorem constructPool_spec (env : Env) (n : Nat) (schedulers : List Scheduler) (w : World) {base : List Int}
    (held : w.openFds.Perm (base ++ schedulers.flatMap Scheduler.fds)) :
    (∃ made w', constructPool env n schedulers w = .ok made w' ∧ Same w w' ∧ made.length = schedulers.length + n ∧
      w'.openFds.Perm (base ++ made.flatMap Scheduler.fds)) ∨
    (∃ e w', constructPool env n schedulers w = .error e w' ∧ Same w w' ∧ (∃ k, env k < 0) ∧
      ∃ leaked : List Int, leaked.length ≤ 1 ∧ w'.openFds.Perm (base ++ leaked)) := by
  induction n generalizing schedulers w with
  | zero => exact Or.inl ⟨schedulers, w, rfl, Same.refl w, rfl, held⟩
  | succ n ih =>
    rcases construct_spec env w with ⟨s, w₁, made, same₁, fds₁⟩ | ⟨e, w₁, threw, same₁, failed, leaked, few, fds₁⟩
    · have next : w₁.openFds.Perm (base ++ (schedulers ++ [s]).flatMap Scheduler.fds) := by
        rw [fds₁]
        simpa using held.append_right s.fds
      have step : constructPool env (n + 1) schedulers w = constructPool env n (schedulers ++ [s]) w₁ := by
        simp only [constructPool, made]
      rw [step]
      rcases ih (schedulers ++ [s]) w₁ next with
        ⟨all, w₂, done, same₂, size, fds₂⟩ | ⟨e, w₂, threw, same₂, failed⟩
      · refine Or.inl ⟨all, w₂, done, same₁.trans same₂, ?_, fds₂⟩
        rw [size, List.length_append, List.length_singleton]
        omega
      · exact Or.inr ⟨e, w₂, threw, same₁.trans same₂, failed⟩
    · obtain ⟨w₂, destroyed, same₂, fds₂⟩ := destroyAll_spec schedulers w₁
      refine Or.inr ⟨e, w₂, ?_, same₁.trans same₂, failed, leaked, few, fds₂ _ ?_⟩
      · simp only [constructPool, threw, bind_eq, destroyed, throw_eq]
      · have all := fds₁.trans (held.append_right leaked)
        refine all.trans ?_
        simpa using (@List.perm_append_comm _ (schedulers.flatMap Scheduler.fds) leaked).append_left base

/-- A socket is made, or the one that was opened is closed again. -/
theorem makeListenSocket_spec (env : Env) (w : World) :
    (∃ fd w', makeListenSocket env w = .ok fd w' ∧ Frame w w' ∧ w'.listening = w.listening + 1 ∧
      w'.openFds = w.openFds ++ [fd]) ∨
    (∃ e w', makeListenSocket env w = .error e w' ∧ Frame w w' ∧ (∃ k, env k < 0) ∧ w'.openFds.Perm w.openFds) := by
  obtain ⟨w₁, socket, same₁, fds₁⟩ := opens_eq env w
  obtain ⟨w₂, bind, same₂, fds₂⟩ := call_eq env w₁
  obtain ⟨w₃, listen, same₃, fds₃⟩ := call_eq env w₂
  by_cases no_socket : env w.calls < 0
  · refine Or.inr ⟨.socket, w₁, ?_, same₁.toFrame, ⟨_, no_socket⟩, ?_⟩
    · simp only [makeListenSocket, bind_eq, socket, if_pos no_socket, throw_eq]
    · rw [fds₁, if_neg (by omega), List.append_nil]
  have opened : w₁.openFds = w.openFds ++ [env w.calls] := by
    rw [fds₁, if_pos (by omega)]
  by_cases not_bound : env w₁.calls < 0
  · obtain ⟨w', closed, same', fds'⟩ := close_eq (env w.calls) w₂
    refine Or.inr ⟨.bind, w', ?_, ((same₁.trans same₂).trans same').toFrame, ⟨_, not_bound⟩, ?_⟩
    · simp only [makeListenSocket, bind_eq, socket, if_neg no_socket, bind, if_pos not_bound, closed, throw_eq]
    · rw [fds', fds₂, opened]
      simpa using erase_middle (List.Perm.refl (w.openFds ++ [env w.calls]))
  by_cases not_listening : env w₂.calls < 0
  · obtain ⟨w', closed, same', fds'⟩ := close_eq (env w.calls) w₃
    refine Or.inr ⟨.listen, w', ?_, (((same₁.trans same₂).trans same₃).trans same').toFrame, ⟨_, not_listening⟩, ?_⟩
    · simp only [makeListenSocket, bind_eq, socket, if_neg no_socket, bind, if_neg not_bound, listen,
        if_pos not_listening, closed, throw_eq]
    · rw [fds', fds₃, fds₂, opened]
      simpa using erase_middle (List.Perm.refl (w.openFds ++ [env w.calls]))
  · have same := (same₁.trans same₂).trans same₃
    refine Or.inl ⟨env w.calls, { w₃ with listening := w₃.listening + 1 }, ?_, ⟨same.workerThreads, same.running,
      same.pool, same.spawned⟩, congrArg (· + 1) same.listening, ?_⟩
    · simp only [makeListenSocket, bind_eq, socket, if_neg no_socket, bind, if_neg not_bound, listen,
        if_neg not_listening]
      rfl
    · exact fds₃.trans (fds₂.trans opened)

/-- The sockets made before an exception stay open. -/
theorem listenAll_spec (env : Env) (i n : Nat) (w : World) {base sockets : List Int}
    (held : w.openFds.Perm (base ++ sockets)) :
    (∃ w' more, listenAll env i n w = .ok () w' ∧ Frame w w' ∧ w'.listening = w.listening + n ∧
      more.length = sockets.length + n ∧ w'.openFds.Perm (base ++ more)) ∨
    (∃ e w' more, listenAll env i n w = .error e w' ∧ Frame w w' ∧ (∃ k, env k < 0) ∧
      more.length < sockets.length + n ∧ w'.openFds.Perm (base ++ more)) := by
  induction n generalizing i w sockets with
  | zero => exact Or.inl ⟨w, sockets, rfl, ⟨rfl, rfl, rfl, rfl⟩, rfl, rfl, held⟩
  | succ n ih =>
    rcases makeListenSocket_spec env w with ⟨fd, w₁, made, frame₁, listening₁, fds₁⟩ | ⟨e, w₁, threw, frame₁, failed, fds₁⟩
    · have next : { w₁ with listenFds := w₁.listenFds.set i fd }.openFds.Perm (base ++ (sockets ++ [fd])) := by
        rw [← List.append_assoc]
        exact fds₁ ▸ held.append_right [fd]
      have step : listenAll env i (n + 1) w =
          listenAll env (i + 1) n { w₁ with listenFds := w₁.listenFds.set i fd } := by
        simp only [listenAll, bind_eq, made]
        rfl
      rw [step]
      rcases ih (i + 1) _ next with
        ⟨w₂, more, done, frame₂, listening₂, size, fds₂⟩ | ⟨e, w₂, more, threw, frame₂, failed, size, fds₂⟩
      · refine Or.inl ⟨w₂, more, done, frame₁.trans ⟨frame₂.1, frame₂.2, frame₂.3, frame₂.4⟩, ?_, ?_, fds₂⟩
        · simp only [listening₂, listening₁]
          omega
        · rw [size, List.length_append, List.length_singleton]
          omega
      · refine Or.inr ⟨e, w₂, more, threw, frame₁.trans ⟨frame₂.1, frame₂.2, frame₂.3, frame₂.4⟩, failed, ?_, fds₂⟩
        rw [List.length_append, List.length_singleton] at size
        omega
    · refine Or.inr ⟨e, w₁, sockets, ?_, frame₁, failed, by omega, fds₁.trans held⟩
      simp only [listenAll, bind_eq, threw]

/-- What an exception of the first `start()` leaves open: at most one eventfd,
or the pool with the sockets made so far. -/
structure LeftBehind (w w' : World) : Prop where
  workerThreads : w'.workerThreads = w.workerThreads
  held : ∀ others : List Int, w.openFds.Perm (others ++ (w.pool.getD []).flatMap Scheduler.fds) →
    (w'.pool = w.pool ∧ ∃ leaked : List Int, leaked.length ≤ 1 ∧ w'.openFds.Perm (w.openFds ++ leaked)) ∨
    (∃ (schedulers : List Scheduler) (sockets : List Int), w'.pool = some schedulers ∧
      schedulers.length = w.workerThreads ∧ sockets.length < w.workerThreads ∧
      w'.openFds.Perm (others ++ schedulers.flatMap Scheduler.fds ++ sockets))

theorem bringUp_spec (env : Env) (w : World) :
    (∃ w', bringUp env w = .ok () w' ∧ w'.running = w.running ∧ w'.spawned = w.spawned + w.workerThreads ∧
      w'.listening = w.listening + w.workerThreads) ∨
    (∃ e w', bringUp env w = .error e w' ∧ (∃ k, env k < 0) ∧ w'.running = w.running ∧ LeftBehind w w') := by
  have alone : w.openFds.Perm (w.openFds ++ ([] : List Scheduler).flatMap Scheduler.fds) := by simp
  rcases constructPool_spec env w.workerThreads [] w alone with
    ⟨schedulers, w₁, made, same₁, size, fds₁⟩ | ⟨e, w₁, threw, same₁, failed, leaked, few, fds₁⟩
  · rw [List.length_nil, Nat.zero_add] at size
    obtain ⟨w₂, destroyed, same₂, fds₂⟩ := destroyAll_spec (w.pool.getD []) w₁
    have same := same₁.trans same₂
    have none_yet : ({ w₂ with pool := some schedulers, listenFds := Sockets.resize w₂.listenFds schedulers.length } :
        World).openFds.Perm (w₂.openFds ++ []) := by simp
    rcases listenAll_spec env 0 schedulers.length _ none_yet with
      ⟨w₃, sockets, listened, frame₃, listening₃, -⟩ | ⟨e, w₃, sockets, threw, frame₃, failed, fewer, fds₃⟩
    · refine Or.inl ⟨{ w₃ with spawned := w₃.spawned + schedulers.length }, ?_, ?_, ?_, ?_⟩
      · simp only [bringUp, bind_eq, getState_eq, made, destroyed, modify_eq, listened]
      · exact frame₃.running.trans same.running
      · simp only [frame₃.spawned, same.spawned, size]
      · simp only [listening₃, same.listening, size]
    · refine Or.inr ⟨e, w₃, ?_, failed, frame₃.running.trans same.running,
        frame₃.workerThreads.trans same.workerThreads, fun others held => Or.inr ⟨schedulers, sockets, frame₃.pool, size, ?_, ?_⟩⟩
      · simp only [bringUp, bind_eq, getState_eq, made, destroyed, modify_eq, threw]
      · rw [List.length_nil, Nat.zero_add, size] at fewer
        exact fewer
      · have all : w₁.openFds.Perm (others ++ schedulers.flatMap Scheduler.fds ++ (w.pool.getD []).flatMap Scheduler.fds) := by
          refine (fds₁.trans (held.append_right _)).trans ?_
          simpa using (@List.perm_append_comm _ ((w.pool.getD []).flatMap Scheduler.fds)
            (schedulers.flatMap Scheduler.fds)).append_left others
        exact fds₃.trans ((fds₂ _ all).append_right sockets)
  · refine Or.inr ⟨e, w₁, ?_, failed, same₁.running, same₁.workerThreads, fun _ _ => Or.inl ⟨same₁.pool, leaked, few, fds₁⟩⟩
    simp only [bringUp, bind_eq, getState_eq, threw]

theorem start_of_running (env : Env) (running : w.running = true) : start env w = .ok () w :=
  if_pos running

theorem start_of_idle (env : Env) (idle : w.running = false) : start env w = bringUp env { w with running := true } := by
  rw [start, if_neg (by simp [idle])]

/-- Where nothing fails an idle server comes up. -/
theorem start_bringsUp (idle : w.running = false) : BringsUp w := by
  intro env answers
  rcases bringUp_spec env { w with running := true } with ⟨w', done, running, spawned, listening⟩ | ⟨_, _, _, ⟨k, failed⟩, -⟩
  · exact ⟨w', (start_of_idle env idle).trans done, running, spawned, listening⟩
  · have success := answers k
    omega

/-- An exception leaves the pool open with the sockets made so far, or an
eventfd at most. -/
theorem failed_start_leftBehind (idle : w.running = false) (threw : start env w = .error e w') : LeftBehind w w' := by
  rw [start_of_idle env idle] at threw
  rcases bringUp_spec env { w with running := true } with ⟨_, done, -⟩ | ⟨e', w'', other, -, -, left⟩
  · cases done.symm.trans threw
  · cases threw.symm.trans other
    exact ⟨left.workerThreads, left.held⟩

/-- Wherever `start()` throws the server remains running, and no later
`start()` does anything, though the idle server could have been started.
Nothing has been taken back. -/
theorem failed_start_not_undone (workers : 0 < w.workerThreads) (idle : w.running = false)
    (threw : start env w = .error e w') :
    w'.running = true ∧ (∀ later, start later w' = .ok () w') ∧ ¬ BringsUp w' ∧ ¬ Undone w w' ∧ BringsUp w ∧
      LeftBehind w w' := by
  have left := failed_start_leftBehind idle threw
  have running : w'.running = true := by
    rw [start_of_idle env idle] at threw
    rcases bringUp_spec env { w with running := true } with ⟨_, done, -⟩ | ⟨e', w'', other, -, running, -⟩
    · cases done.symm.trans threw
    · cases threw.symm.trans other
      exact running
  have stuck : ∀ later, start later w' = .ok () w' := fun later => start_of_running later running
  refine ⟨running, stuck, fun brings => ?_, fun undone => ?_, start_bringsUp idle, left⟩
  · obtain ⟨again, done, -, spawned, -⟩ := brings (fun _ => 0) fun _ => Int.le_refl 0
    cases (stuck _).symm.trans done
    have same : w'.workerThreads = w.workerThreads := left.workerThreads
    omega
  · cases running.symm.trans undone.running

/-- The exception of a call, if there is one, and the state after it. -/
def outcome : EStateM.Result Exn World Unit → Option Exn × World
  | .ok _ w => (none, w)
  | .error e w => (some e, w)

theorem error_of_outcome {r : EStateM.Result Exn World Unit} (threw : outcome r = (some e, w)) : r = .error e w := by
  cases r <;> cases threw
  rfl

/-- With two workers the tenth system call is the second `socket()`. -/
def secondSocketFails : Env := fun k => if k = 9 then -1 else k + 3

/-- The server keeps three descriptors of each scheduler and the first socket. -/
def halfStarted : World where
  workerThreads := 2
  running := true
  pool := some [⟨3, 4, 5⟩, ⟨6, 7, 8⟩]
  listenFds := [9, 0]
  openFds := [3, 4, 5, 6, 7, 8, 9]
  calls := 10
  listening := 1

theorem second_socket_fails :
    start secondSocketFails (make 2) = .error .socket halfStarted ∧ ¬ Undone (make 2) halfStarted := by
  refine ⟨error_of_outcome (by decide +kernel), fun undone => ?_⟩
  cases undone.running

/-- The first `timerfd_create` fails, and the eventfd remains. -/
def eventfdLeaked : World where
  workerThreads := 1
  running := true
  openFds := [4]
  calls := 3

theorem first_timerfd_fails : eventfdLeaked.running = true ∧ ¬ Undone (make 1) eventfdLeaked := by
  have threw : start (fun k => if k = 2 then -1 else k + 3) (make 1) = .error .timerfdCreate eventfdLeaked :=
    error_of_outcome (by decide +kernel)
  have left := failed_start_not_undone (by decide) rfl threw
  exact ⟨left.1, left.2.2.2.1⟩

end CoroNet.TcpServer.FailedStart
