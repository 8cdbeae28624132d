import CoroNet.Scheduler.Exit
import CoroNet.Server.Owners

namespace CoroNet.TcpServer.Shutdown

open Function Transition
open SchedulerPool (solo)

variable {n : Nat} {w w' : World n} {a : Act n} {acts : List (Act n)}

/-- Every connection that was made has been destroyed, its descriptor closed
and its slot released. -/
def World.Released (w : World n) : Prop :=
  ∀ k conn, w.conns[k]? = some conn → k ∈ w.destroyed ∧ conn.fd ∈ w.closed ∧
    (conn.buffer.hasFixedSlot = true → (conn.sched, conn.buffer.bufIndex) ∈ w.released)

/-- The worker does not leave its loop while a coroutine of it has a connection. -/
def World.empty (w : World n) : Act n → Bool
  | .worker i .next =>
    decide ((w.scheds i).pc = .loop ∨ (w.scheds i).pc = .check → (w.scheds i).stopping = true →
      ∀ f ∈ w.frames, f.sched ≠ i)
  | _ => true

theorem spawn_user {s s' : Scheduler.World} {c : Nat} (moved : Scheduler.step s (.spawn c) = some s') :
    s.userCode = true := by
  cases (Scheduler.step_move moved).2 with
  | spawn user => exact user
  | goto goto => cases goto
  | rearm rearms | rearmFull rearms => cases rearms

theorem finish_user {s s' : Scheduler.World} (moved : Scheduler.step s .finish = some s') : s.userCode = true := by
  cases (Scheduler.step_move moved).2 with
  | finish user => exact user
  | goto goto => cases goto
  | rearm rearms | rearmFull rearms => cases rearms

theorem World.set_scheds {i : Fin n} {b : Scheduler.Act} {sched : Scheduler.World}
    (moved : Scheduler.step (w.scheds i) b = some sched) (scheds : w'.scheds = update w.scheds i sched) (j : Fin n) :
    w'.scheds j = w.scheds j ∨ j = i ∧ Scheduler.step (w.scheds j) b = some (w'.scheds j) := by
  rw [scheds]
  by_cases same : j = i
  · subst same
    rw [update_self]
    exact Or.inr ⟨rfl, moved⟩
  · exact Or.inl (update_of_ne same ..)

/-- A scheduler stands still or takes a step; its worker goes on by itself. -/
theorem Move.scheds (move : Move w a w') (books : Books w) (j : Fin n) : w'.scheds j = w.scheds j ∨
    ∃ b, (b = .next → a = .worker j .next) ∧ Scheduler.step (w.scheds j) b = some (w'.scheds j) := by
  have only {i : Fin n} {b : Scheduler.Act} {sched : Scheduler.World} (moved : Scheduler.step (w.scheds i) b = some sched)
      (scheds : w'.scheds = update w.scheds i sched) (next : b = .next → a = .worker i .next) :
      w'.scheds j = w.scheds j ∨
        ∃ b, (b = .next → a = .worker j .next) ∧ Scheduler.step (w.scheds j) b = some (w'.scheds j) := by
    rcases World.set_scheds moved scheds j with still | ⟨rfl, steps⟩
    · exact Or.inl still
    · exact Or.inr ⟨_, next, steps⟩
  cases move with
  | worker moved => exact only moved rfl fun next => by rw [next]
  | finish _ moved => exact only moved (books.set.letGo _).2.1.scheds nofun
  | acceptLoop moved | accept _ _ moved | share _ moved | evict _ _ moved | postTask moved | wake moved =>
    exact only moved rfl nofun
  | drop => exact Or.inl (congrFun (books.letGo _).2.1.scheds j)
  | _ => exact Or.inl rfl

/-- Only user code on a worker makes or ends frames there. -/
theorem Move.frames (move : Move w a w') (books : Books w) (f : Frame n) :
    (f ∈ w'.frames ↔ f ∈ w.frames) ∨ (w.scheds f.sched).userCode = true := by
  have added {i : Fin n} {c k : Nat} (user : (w.scheds i).userCode = true) (frames : w'.frames = w.frames ++ [⟨i, c, k⟩]) :
      (f ∈ w'.frames ↔ f ∈ w.frames) ∨ (w.scheds f.sched).userCode = true := by
    by_cases this : f = ⟨i, c, k⟩
    · exact Or.inr (by rw [this]; exact user)
    · exact Or.inl (by rw [frames, List.mem_append, List.mem_singleton, or_iff_left this])
  have removed {i : Fin n} {lost : Frame n → Bool} (user : (w.scheds i).userCode = true)
      (frames : w'.frames = w.frames.filter fun f => !lost f) (here : lost f = true → f.sched = i) :
      (f ∈ w'.frames ↔ f ∈ w.frames) ∨ (w.scheds f.sched).userCode = true := by
    cases goes : lost f with
    | true => exact Or.inr (by rw [here goes]; exact user)
    | false => exact Or.inl (by simp [frames, goes])
  cases move with
  | finish _ moved =>
    refine removed (finish_user moved) (books.set.letGo _).2.2 fun goes => ?_
    exact (of_decide_eq_true goes).1
  | drop user =>
    refine removed user (books.letGo _).2.2 fun goes => ?_
    rw [of_decide_eq_true goes]
  | accept _ _ moved | share _ moved | evict _ _ moved => exact added (spawn_user moved) rfl
  | _ => exact Or.inl Iff.rfl

/-- The workers `wait()` has joined are past their loops. -/
structure Joined (w : World n) : Prop where
  joining : ∀ k, w.wait = .joining k → ∀ i : Fin n, i.val < k → (w.scheds i).pc.exited = true
  returned : w.wait = .returned → ∀ i, (w.scheds i).pc.exited = true
  gone : w.gone = true → w.wait = .returned

/-- No worker comes back to its loop. -/
theorem Move.stays (move : Move w a w') (books : Books w) {j : Fin n} (out : (w.scheds j).pc.exited = true) :
    (w'.scheds j).pc.exited = true := by
  rcases move.scheds books j with still | ⟨b, _, moved⟩
  · rwa [still]
  · exact (Scheduler.step_move moved).2.stays out

theorem Move.joined_inv (move : Move w a w') (books : Books w) (going : w.gone = false) (joined : Joined w) :
    Joined w' := by
  have early {v : World n} (still : v.gone = w.gone) : v.gone ≠ true :=
    fun gone => absurd ((still.symm.trans gone).symm.trans going) nofun
  have steady (wait : w'.wait = w.wait) (still : w'.gone = w.gone) : Joined w' := by
    refine ⟨fun k here i below => ?_, fun here i => ?_, fun gone => absurd gone (early still)⟩
    · exact move.stays books (joined.joining k (wait ▸ here) i below)
    · exact move.stays books (joined.returned (wait ▸ here) i)
  cases move with
  | finish => exact steady (books.set.letGo _).2.1.wait (books.set.letGo _).2.1.gone
  | drop => exact steady (books.letGo _).2.1.wait (books.letGo _).2.1.gone
  | wait =>
    refine ⟨fun k here i below => ?_, nofun, fun gone => absurd gone (early rfl)⟩
    cases here
    exact absurd below (Nat.not_lt_zero _)
  | @join i here out =>
    refine ⟨fun k next j below => ?_, nofun, fun gone => absurd gone (early rfl)⟩
    cases next
    rcases Nat.lt_succ_iff_lt_or_eq.mp below with before | this
    · exact joined.joining i here j before
    · rw [show j = i from Fin.ext this, out]
      rfl
  | joined here all =>
    exact ⟨nofun, fun _ i => joined.joining _ here i (Nat.lt_of_lt_of_le i.isLt all), fun gone => absurd gone (early rfl)⟩
  | destroy returned => exact ⟨joined.joining, joined.returned, fun _ => returned⟩
  | _ => exact steady rfl rfl

/-- A worker past its loop has no coroutine with a connection. -/
def Clear (w : World n) : Prop := ∀ f ∈ w.frames, (w.scheds f.sched).pc.exited = false

/-- A worker past its loop has a coroutine with a connection. -/
def Stuck (w : World n) : Prop := ∃ f ∈ w.frames, (w.scheds f.sched).pc.exited = true

/-- A worker that gets past its loop was at a test of `stopping_`. -/
theorem Move.leaves (move : Move w a w') (books : Books w) {j : Fin n} (inside : (w.scheds j).pc.exited = false)
    (out : (w'.scheds j).pc.exited = true) :
    a = .worker j .next ∧ ((w.scheds j).pc = .loop ∨ (w.scheds j).pc = .check) ∧ (w.scheds j).stopping = true := by
  rcases move.scheds books j with still | ⟨b, next, moved⟩
  · rw [still, inside] at out
    cases out
  · rcases ((Scheduler.step_move moved).2.exits out).2 with before | ⟨rfl, here, up⟩
    · rw [inside] at before
      cases before
    · exact ⟨next rfl, here, up⟩

/-- The tests of `stopping_` are not in user code. -/
theorem tests_outside {j : Fin n} (here : (w.scheds j).pc = .loop ∨ (w.scheds j).pc = .check) :
    (w.scheds j).userCode ≠ true := by
  rcases here with here | here
  · simp [Scheduler.World.userCode, here]
  · simp [Scheduler.World.userCode, here]

theorem Move.clear (move : Move w a w') (books : Books w) (met : w.empty a = true) (clear : Clear w) : Clear w' := by
  intro f member
  have inside : (w.scheds f.sched).pc.exited = false := by
    rcases move.frames books f with same | user
    · exact clear f (same.mp member)
    · exact (Scheduler.World.userCode_inside user).1
  by_contra out
  obtain ⟨rfl, here, up⟩ := move.leaves books inside (by simpa using out)
  have none_here := of_decide_eq_true met here up
  rcases move.frames books f with same | user
  · exact none_here f (same.mp member) rfl
  · exact tests_outside here user

theorem Move.stuck (move : Move w a w') (books : Books w) (stuck : Stuck w) : Stuck w' := by
  obtain ⟨f, member, out⟩ := stuck
  refine ⟨f, ?_, move.stays books out⟩
  rcases move.frames books f with same | user
  · exact same.mpr member
  · exact absurd out (by simp [(Scheduler.World.userCode_inside user).1])

/-- A test that finds `stopping_` set ends the loop. -/
theorem test_exits {i : Fin n} {sched : Scheduler.World} (moved : Scheduler.step (w.scheds i) .next = some sched)
    (here : (w.scheds i).pc = .loop ∨ (w.scheds i).pc = .check) (up : (w.scheds i).stopping = true) :
    ((w.set i sched).scheds i).pc.exited = true := by
  show (update w.scheds i sched i).pc.exited = true
  rw [update_self, Scheduler.leaves moved here up]
  rfl

/-- A worker that leaves its loop with a connection in a frame. -/
theorem Move.sticks (move : Move w a w') (unmet : ¬ w.empty a = true) : Stuck w' := by
  cases move with
  | @worker i b sched moved =>
    cases b with
    | next =>
      simp only [World.empty, decide_eq_true_eq, not_forall] at unmet
      obtain ⟨here, up, f, member, mine⟩ := unmet
      have mine : f.sched = i := by simpa using mine
      refine ⟨f, member, ?_⟩
      rw [mine]
      exact test_exits moved here up
    | _ => exact absurd rfl unmet
  | _ => exact absurd rfl unmet

theorem going (move : step w a = some w') : w.gone = false := by
  simpa using (Option.ite_none_left_eq_some.mp move).1

theorem run_books {entries : Nat} {sqpoll : Bool} {bufPools : Fin n → Option RegisteredBufferPool} {idle : Int}
    (reach : Run step (start n entries sqpoll bufPools idle) acts w) : Books w ∧ Joined w :=
  reach.invariant (P := fun w => Books w ∧ Joined w) ⟨⟨nofun, nofun, nofun, nofun⟩, ⟨nofun, nofun, nofun⟩⟩
    fun ⟨books, joined⟩ move =>
      ⟨(step_move move).books books, (step_move move).joined_inv books (going move) joined⟩

/-- When the server is destroyed every connection has been destroyed if and
only if no worker left its loop while one of its coroutines had a connection. -/
theorem shutdown_releases_iff {entries : Nat} {sqpoll : Bool} {bufPools : Fin n → Option RegisteredBufferPool} {idle : Int}
    (reach : Run step (start n entries sqpoll bufPools idle) acts w) (gone : w.gone = true) :
    w.Released ↔ RunWhile step (fun w a => w.empty a = true) (start n entries sqpoll bufPools idle) acts w := by
  obtain ⟨books, joined⟩ := run_books reach
  have out := joined.returned (joined.gone gone)
  constructor
  · intro released
    have decided : RunWhile step (fun w a => w.empty a = true) (start n entries sqpoll bufPools idle) acts w ∨
        Stuck w :=
      reach.meets_or (fun _ move met => (step_move move).sticks met)
        fun before move stuck => (step_move move).stuck (run_books before).1 stuck
    refine decided.resolve_right fun ⟨f, member, _⟩ => ?_
    obtain ⟨made, alive⟩ := books.alive f member
    exact alive (released f.conn _ (List.getElem?_eq_getElem made)).1
  · intro good
    have clear : Books w ∧ Clear w :=
      good.invariant (P := fun w => Books w ∧ Clear w) ⟨⟨nofun, nofun, nofun, nofun⟩, nofun⟩
        fun ⟨books, clear⟩ met move => ⟨(step_move move).books books, (step_move move).clear books met clear⟩
    intro k conn made
    obtain ⟨bound, _⟩ := List.getElem?_eq_some_iff.mp made
    rcases books.owned k bound with freed | ⟨f, member, _⟩
    · exact (books.freed k freed).2 conn made
    · exact absurd (out f.sched) (by simp [clear.2 f member])

/-- One worker, with a pool of one slot. -/
def oneWorker : World 1 :=
  start 1 8 false (fun _ => some { slotSize := 16, capacity := 1, freeList := [0], enabled := true }) 0

/-- The worker goes on by itself. -/
def steps (k : Nat) : List (Act 1) := List.replicate k (.worker solo .next)

/-- A connection comes in, and its handler waits in `recv`. -/
def serving : List (Act 1) :=
  [.worker solo (.queueBootTask 1)] ++ steps 7 ++
    [.acceptLoop solo 0, .worker solo (.suspend (.accept 3)), .worker solo .ret] ++ steps 4 ++
    [.worker solo (.complete 2 7 0)] ++ steps 7 ++
    [.accept solo 1, .worker solo (.suspend (.recvIntoBuffer 7 1024)), .worker solo (.suspend (.accept 3)),
      .worker solo .ret] ++ steps 3

/-- The peer closes the connection, and the handler ends. -/
def closing : List (Act 1) :=
  [.worker solo (.complete 2 0 0)] ++ steps 7 ++ [.finish solo, .worker solo .ret] ++ steps 3

/-- `stop()` and `wait()` return, and the server is destroyed. -/
def stopping : List (Act 1) :=
  [.stop, .stopNext, .stopNext, .stopNext, .worker solo .interrupt] ++ steps 4 ++
    [.worker solo .selfStop, .worker solo .ret] ++ steps 4 ++ [.wait, .waitNext, .waitNext, .destroy]

def closedWorld : World 1 := after step oneWorker (serving ++ closing ++ stopping)

theorem closed_connection_released : closedWorld.gone = true ∧ closedWorld.conns.length = 1 ∧ closedWorld.Released := by
  have reach : RunWhile step (fun w a => w.empty a = true) oneWorker (serving ++ closing ++ stopping) closedWorld :=
    guarded_run (run_eq_some rfl)
  exact ⟨rfl, rfl, (shutdown_releases_iff reach.run rfl).mpr reach⟩

/-- Nothing ends the handler. -/
def abandonedWorld : World 1 := after step oneWorker (serving ++ stopping)

theorem waiting_handler_leaks : ¬ ∀ (n entries : Nat) (sqpoll : Bool) (bufPools : Fin n → Option RegisteredBufferPool)
    (idle : Int) (acts : List (Act n)) (w : World n), Run step (start n entries sqpoll bufPools idle) acts w →
      w.gone = true → w.Released := by
  intro claim
  have reach : Run step oneWorker (serving ++ stopping) abandonedWorld := run_eq_some rfl
  have released := claim 1 8 false _ 0 _ _ reach rfl
  exact absurd (released 0 _ rfl).1 (by decide)

end CoroNet.TcpServer.Shutdown
