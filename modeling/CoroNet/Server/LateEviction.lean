import CoroNet.Server.Release

namespace CoroNet.TcpServer.Shutdown

open Function Transition
open SchedulerPool (solo)

variable {n : Nat} {w w' : World n} {a : Act n} {acts : List (Act n)}

namespace World

/-- The connections with an entry in a wheel that still exist. -/
def evictable (w : World n) : List Nat := w.entries.filter fun k => k ∉ w.destroyed

/-- The destructors of entries that a step runs and that find their connection
alive, each with the worker it runs on; the wheels of a server are destroyed on
none. -/
def evictions (w : World n) : Act n → List (Nat × Option (Fin n))
  | .evict i _ k => [(k, some i)]
  | .destroy => w.evictable.map fun k => (k, none)
  | _ => []

/-- It runs on the worker of the connection, in something the loop of that worker called. -/
def OnOwner (w : World n) (e : Nat × Option (Fin n)) : Prop :=
  ∃ i, e.2 = some i ∧ w.conns[e.1]?.map Connection.sched = some i ∧ (w.scheds i).userCode = true

/-- The worker does not leave its loop while a coroutine of it has a
connection with an entry in a wheel. -/
def unheld (w : World n) : Act n → Bool
  | .worker i .next =>
    decide ((w.scheds i).pc = .loop ∨ (w.scheds i).pc = .check → (w.scheds i).stopping = true →
      ∀ f ∈ w.frames, f.sched = i → f.conn ∉ w.entries)
  | _ => true

theorem letGo_entries (w : World n) (lost : Frame n → Bool) : (w.letGo lost).entries = w.entries := by
  have kept (dead : List Nat) (v : World n) : (dead.foldl destruct v).entries = v.entries := by
    induction dead generalizing v with
    | nil => rfl
    | cons k rest ih =>
      rw [List.foldl_cons, ih]
      unfold destruct
      split <;> rfl
  exact kept _ _

end World

theorem evict_cases {i : Fin n} {c k : Nat} (move : step w (.evict i c k) = some w') :
    k ∈ w.entries ∧ w.conns[k]?.map Connection.sched = some i ∧ (w.scheds i).userCode = true := by
  obtain ⟨_, move⟩ := Option.ite_none_left_eq_some.mp move
  obtain ⟨⟨member, _, mine⟩, move⟩ := Option.ite_none_right_eq_some.mp move
  obtain ⟨sched, moved, _⟩ := Option.map_eq_some_iff.mp move
  exact ⟨member, mine, spawn_user moved⟩

/-- Where the pointers to a connection are, and what a destroyed server leaves. -/
structure Placed (w : World n) : Prop where
  sched : ∀ f ∈ w.frames, ∀ conn, w.conns[f.conn]? = some conn → conn.sched = f.sched
  entries : ∀ k ∈ w.entries, k < w.conns.length

theorem Placed.filter (placed : Placed w) {lost : Frame n → Bool} (conns : w'.conns = w.conns)
    (frames : w'.frames = w.frames.filter fun f => !lost f) (entries : w'.entries = w.entries) : Placed w' := by
  refine ⟨fun f member conn here => ?_, fun k member => ?_⟩
  · rw [frames] at member
    exact placed.sched f (List.mem_filter.mp member).1 conn (conns ▸ here)
  · rw [conns]
    exact placed.entries k (entries ▸ member)

theorem Placed.congr (placed : Placed w) (conns : w'.conns = w.conns) (frames : w'.frames = w.frames)
    (entries : w'.entries = w.entries) : Placed w' := by
  refine ⟨fun f member conn here => placed.sched f (frames ▸ member) conn (conns ▸ here), fun k member => ?_⟩
  rw [conns]
  exact placed.entries k (entries ▸ member)

theorem Placed.hold (placed : Placed w) {f : Frame n} (mine : w.conns[f.conn]?.map Connection.sched = some f.sched)
    (conns : w'.conns = w.conns) (frames : w'.frames = w.frames ++ [f]) (entries : ∀ k ∈ w'.entries, k ∈ w.entries) :
    Placed w' := by
  refine ⟨fun g member conn here => ?_, fun k member => ?_⟩
  · rw [conns] at here
    rw [frames] at member
    rcases List.mem_append.mp member with old | new
    · exact placed.sched g old conn here
    · rw [List.mem_singleton.mp new] at here ⊢
      rw [here] at mine
      exact Option.some.inj mine
  · rw [conns]
    exact placed.entries k (entries k member)

theorem Placed.construct (placed : Placed w) (books : Books w) {i : Fin n} {fd : Int} {c : Nat} :
    Placed (w.construct i fd c) := by
  have more : (w.construct i fd c).conns.length = w.conns.length + 1 := by simp [World.construct]
  refine ⟨fun f member conn here => ?_, fun k member => ?_⟩
  · rcases List.mem_append.mp member with old | new
    · have bound := (books.alive f old).1
      exact placed.sched f old conn ((List.getElem?_append_left bound).symm.trans here)
    · rw [List.mem_singleton.mp new] at here ⊢
      simp only [World.construct, List.getElem?_concat_length, Option.some.injEq] at here
      rw [← here]
  · rw [more]
    simp only [World.construct] at member
    split at member
    · rcases List.mem_append.mp member with old | new
      · exact Nat.lt_succ_of_lt (placed.entries k old)
      · rw [List.mem_singleton.mp new]
        exact Nat.lt_succ_self _
    · exact Nat.lt_succ_of_lt (placed.entries k member)

theorem Placed.step (placed : Placed w) (books : Books w) (move : step w a = some w') : Placed w' := by
  cases step_move move with
  | finish =>
    obtain ⟨_, kept, frames⟩ := books.set.letGo _
    exact placed.filter kept.conns frames (World.letGo_entries _ _)
  | drop =>
    obtain ⟨_, kept, frames⟩ := books.letGo _
    exact placed.filter kept.conns frames (World.letGo_entries _ _)
  | @accept i _ _ sched =>
    have books' : Books { w.set i sched with accepted := update w.accepted i (w.scheds i).resumed.length } :=
      books.congr rfl rfl rfl rfl rfl
    have placed' : Placed { w.set i sched with accepted := update w.accepted i (w.scheds i).resumed.length } :=
      placed.congr rfl rfl rfl
    exact placed'.construct books'
  | @share i c d k _ has =>
    obtain ⟨bound, _⟩ := books.alive _ has
    have mine : w.conns[k]?.map Connection.sched = some i := by
      have here := List.getElem?_eq_getElem bound
      rw [here, Option.map_some, placed.sched _ has _ here]
    exact placed.hold (f := ⟨i, c, k⟩) mine rfl rfl fun _ member => member
  | @evict i c k =>
    exact placed.hold (f := ⟨i, c, k⟩) (evict_cases move).2.1 rfl rfl fun _ member => (List.mem_filter.mp member).1
  | _ => exact placed.congr rfl rfl rfl

/-- A coroutine has a connection that a wheel has an entry for. -/
def Held (w : World n) (f : Frame n) : Prop := f ∈ w.frames ∧ f.conn ∈ w.entries

/-- Only user code on its worker changes that. -/
theorem held_same (placed : Placed w) (books : Books w) (move : step w a = some w') (f : Frame n) :
    (Held w' f ↔ Held w f) ∨ (w.scheds f.sched).userCode = true := by
  have moved := step_move move
  rcases moved.frames books f with same | user
  · have entries : f ∈ w.frames → (f.conn ∈ w'.entries ↔ f.conn ∈ w.entries) ∨ (w.scheds f.sched).userCode = true := by
      intro has
      cases moved with
      | finish | drop =>
        rw [World.letGo_entries]
        exact Or.inl Iff.rfl
      | accept =>
        refine Or.inl ?_
        have old : f.conn ≠ w.conns.length := Nat.ne_of_lt (books.alive f has).1
        by_cases idle : 0 < w.idle
        · simp [World.construct, World.set, idle, old]
        · simp [World.construct, World.set, idle]
      | @evict i c k =>
        by_cases this : f.conn = k
        · obtain ⟨_, mine, user⟩ := evict_cases move
          obtain ⟨conn, here, sched⟩ := Option.map_eq_some_iff.mp mine
          have owner := placed.sched f has conn (this ▸ here)
          exact Or.inr (by rw [← owner, sched]; exact user)
        · exact Or.inl (by simp [this])
      | _ => exact Or.inl Iff.rfl
    by_cases has : f ∈ w.frames
    · exact (entries has).imp_left fun iff => and_congr same iff
    · exact Or.inl ⟨fun held => absurd (same.mp held.1) has, fun held => absurd held.1 has⟩
  · exact Or.inr user

/-- No worker past its loop has such a coroutine, or one has. -/
def Unheld (w : World n) : Prop := ∀ f, Held w f → (w.scheds f.sched).pc.exited = false

def Abandoned (w : World n) : Prop := ∃ f, Held w f ∧ (w.scheds f.sched).pc.exited = true

theorem Unheld.step (kept : Unheld w) (placed : Placed w) (books : Books w) (met : w.unheld a = true)
    (move : step w a = some w') : Unheld w' := by
  intro f held
  have inside : (w.scheds f.sched).pc.exited = false := by
    rcases held_same placed books move f with same | user
    · exact kept f (same.mp held)
    · exact (Scheduler.World.userCode_inside user).1
  by_contra out
  obtain ⟨rfl, here, up⟩ := (step_move move).leaves books inside (by simpa using out)
  have none_here := of_decide_eq_true met here up f
  rcases held_same placed books move f with same | user
  · exact none_here (same.mp held).1 rfl (same.mp held).2
  · exact tests_outside here user

theorem Abandoned.step (abandoned : Abandoned w) (placed : Placed w) (books : Books w) (move : step w a = some w') :
    Abandoned w' := by
  obtain ⟨f, held, out⟩ := abandoned
  refine ⟨f, ?_, (step_move move).stays books out⟩
  rcases held_same placed books move f with same | user
  · exact same.mpr held
  · exact absurd out (by simp [(Scheduler.World.userCode_inside user).1])

theorem abandons (move : step w a = some w') (unmet : ¬ w.unheld a = true) : Abandoned w' := by
  cases step_move move with
  | @worker i b sched moved =>
    cases b with
    | next =>
      simp only [World.unheld, decide_eq_true_eq, not_forall, not_not] at unmet
      obtain ⟨here, up, f, member, mine, entry⟩ := unmet
      refine ⟨f, ⟨member, entry⟩, ?_⟩
      rw [mine]
      exact test_exits moved here up
    | _ => exact absurd rfl unmet
  | _ => exact absurd rfl unmet

/-- A step that destroys no server runs such destructors only in a wheel's tick. -/
theorem tick_on_owner (move : step w a = some w') (other : a ≠ .destroy) : ∀ e ∈ w.evictions a, w.OnOwner e := by
  intro e member
  cases a with
  | evict i c k =>
    obtain ⟨_, mine, user⟩ := evict_cases move
    rw [List.mem_singleton.mp member]
    exact ⟨i, rfl, mine, user⟩
  | destroy => exact absurd rfl other
  | _ => cases member

theorem Move.gone_same (move : Move w a w') (books : Books w) (other : a ≠ .destroy) : w'.gone = w.gone := by
  cases move with
  | finish => exact (books.set.letGo _).2.1.gone
  | drop => exact (books.letGo _).2.1.gone
  | destroy => exact absurd rfl other
  | _ => rfl

section Lives

variable {entries : Nat} {sqpoll : Bool} {bufPools : Fin n → Option RegisteredBufferPool} {idle : Int}

theorem run_placed (reach : Run step (start n entries sqpoll bufPools idle) acts w) : Placed w := by
  have held : Books w ∧ Placed w := by
    refine reach.invariant (P := fun w => Books w ∧ Placed w) ⟨(run_books .start).1, ?_⟩ ?_
    · exact ⟨(fun f member => by cases member), (fun k member => by cases member)⟩
    · intro w a w' held move
      exact ⟨(step_move move).books held.1, held.2.step held.1 move⟩
  exact held.2

/-- At the destruction every worker is past its loop, so no frame has a
connection with an entry, and a connection without a frame is gone. -/
theorem none_evictable (books : Books w) (placed : Placed w) (kept : Unheld w)
    (out : ∀ i, (w.scheds i).pc.exited = true) : w.evictable = [] := by
  rw [World.evictable, List.filter_eq_nil_iff]
  intro k member
  have bound := placed.entries k member
  rcases books.owned k bound with gone | ⟨f, has, rfl⟩
  · simpa using gone
  · exact absurd (out f.sched) (by simp [kept f ⟨has, member⟩])

/-- After a life without late evictions no connection is left that a wheel had an entry for. -/
theorem evictable_nil
    (reach : RunWhile step (fun w a => ∀ e ∈ w.evictions a, w.OnOwner e) (start n entries sqpoll bufPools idle) acts w)
    (gone : w.gone = true) : w.evictable = [] := by
  cases reach with
  | start => cases gone
  | @next before w _ a earlier owners move =>
    by_cases last : a = .destroy
    · subst last
      have nothing : w.evictable = [] := by
        refine List.eq_nil_iff_forall_not_mem.mpr fun k member => ?_
        obtain ⟨i, same, _⟩ := owners (k, none) (List.mem_map_of_mem member)
        cases same
      cases step_move move
      exact nothing
    · have same := (step_move move).gone_same (run_books earlier.run).1 last
      exact absurd ((same.symm.trans gone).symm.trans (going move)) (by simp)

theorem unheld_run (reach : RunWhile step (fun w a => w.unheld a = true) (start n entries sqpoll bufPools idle) acts w) :
    Unheld w ∧ RunWhile step (fun w a => ∀ e ∈ w.evictions a, w.OnOwner e) (start n entries sqpoll bufPools idle) acts w := by
  induction reach with
  | start => exact ⟨fun f held => (by cases held.1), .start⟩
  | @next before w _ a earlier met move ih =>
    obtain ⟨kept, owners⟩ := ih
    obtain ⟨books, joined⟩ := run_books earlier.run
    have placed := run_placed earlier.run
    refine ⟨kept.step placed books met move, owners.next ?_ move⟩
    by_cases last : a = .destroy
    · subst last
      cases step_move move with
      | destroy returned =>
        have nothing := none_evictable books placed kept (joined.returned returned)
        intro e member
        simp [World.evictions, nothing] at member
    · exact tick_on_owner move last

/-- A server that lives on has evicted on the owning workers only; a destroyed
one has if and only if no worker left its loop while one of its coroutines had
a connection with an entry in a wheel. -/
theorem evictions_on_owner_iff (reach : Run step (start n entries sqpoll bufPools idle) acts w) :
    RunWhile step (fun w a => ∀ e ∈ w.evictions a, w.OnOwner e) (start n entries sqpoll bufPools idle) acts w ↔
      (w.gone = true →
        RunWhile step (fun w a => w.unheld a = true) (start n entries sqpoll bufPools idle) acts w) := by
  constructor
  · intro owners gone
    have decided : RunWhile step (fun w a => w.unheld a = true) (start n entries sqpoll bufPools idle) acts w ∨
        Abandoned w :=
      reach.meets_or (fun _ move met => abandons move met)
        fun before move abandoned => abandoned.step (run_placed before) (run_books before).1 move
    refine decided.resolve_right fun ⟨f, ⟨has, member⟩, _⟩ => ?_
    have nothing := evictable_nil owners gone
    have alive := ((run_books reach).1.alive f has).2
    have late : f.conn ∈ w.evictable := List.mem_filter.mpr ⟨member, by simpa using alive⟩
    rw [nothing] at late
    cases late
  · intro unheld
    by_cases gone : w.gone = true
    · exact (unheld_run (unheld gone)).2
    · clear unheld
      induction reach with
      | start => exact .start
      | @next before w _ a earlier _ move ih =>
        have other : a ≠ .destroy := by
          rintro rfl
          cases step_move move
          exact gone rfl
        have still : ¬ w.gone = true := by simp [going move]
        exact (ih still).next (tick_on_owner move other) move

end Lives

/-- One worker with an idle timeout of a minute. -/
def minuteWorker : World 1 := start 1 8 false (fun _ => none) 60

/-- The wheel's coroutine and the accept loop start, a connection comes in,
and its handler waits in `recv`. -/
def minuteServing : List (Act 1) :=
  [.worker solo (.queueBootTask 1), .worker solo (.queueBootTask 2)] ++ steps 7 ++
    [.worker solo (.spawn 9), .worker solo (.suspend (.timeout 1000000000)), .worker solo .ret] ++ steps 1 ++
    [.acceptLoop solo 0, .worker solo (.suspend (.accept 3)), .worker solo .ret] ++ steps 4 ++
    [.worker solo (.complete 3 7 0)] ++ steps 7 ++
    [.accept solo 1, .worker solo (.suspend (.recvIntoBuffer 7 1024)), .worker solo (.suspend (.accept 3)),
      .worker solo .ret] ++ steps 3

/-- The peer closes the connection, and the handler ends. -/
def minuteClosing : List (Act 1) :=
  [.worker solo (.complete 3 0 0)] ++ steps 7 ++ [.finish solo, .worker solo .ret] ++ steps 3

theorem closed_connection_not_evicted_late :
    RunWhile step (fun w a => ∀ e ∈ w.evictions a, w.OnOwner e) minuteWorker (minuteServing ++ minuteClosing ++ stopping)
      (after step minuteWorker (minuteServing ++ minuteClosing ++ stopping)) := by
  have reach : RunWhile step (fun w a => w.unheld a = true) minuteWorker (minuteServing ++ minuteClosing ++ stopping)
      (after step minuteWorker (minuteServing ++ minuteClosing ++ stopping)) := guarded_run (run_eq_some rfl)
  exact (evictions_on_owner_iff reach.run).mpr fun _ => reach

/-- Nothing ends the handler, and the wheel is destroyed with its entry. -/
def minuteAbandoned : World 1 := after step minuteWorker (minuteServing ++ stopping)

theorem waiting_handler_evicted_late :
    Run step minuteWorker (minuteServing ++ stopping) minuteAbandoned ∧ minuteAbandoned.gone = true ∧
      minuteAbandoned.late = [0] ∧
      ¬ RunWhile step (fun w a => ∀ e ∈ w.evictions a, w.OnOwner e) minuteWorker (minuteServing ++ stopping)
        minuteAbandoned := by
  refine ⟨run_eq_some rfl, rfl, by decide, fun owners => ?_⟩
  have nothing := evictable_nil owners rfl
  exact absurd nothing (by decide)

end CoroNet.TcpServer.Shutdown
