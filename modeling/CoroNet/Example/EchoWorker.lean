import CoroNet.Example.EchoServer
import CoroNet.Server.Worker

namespace CoroNet.EchoServer

open Coroutine (Kind)
open EventLoop Transition
open TcpServer (Worker resultsOf serving worker worker_embeds)

variable {S S' : Kind → Type} {f : ∀ k, S k → S' k} {c : Conn}

def acceptOp (listenFd : Int) : Op := { awaiter := .accept listenFd }

/-- The handler for connection number `n`, whose constructor finds the slot of `slots n`. -/
def handlerOf (slots : Nat → Conn) (n : Nat) (fd : Int) : Running .void := ({ slots n with fd := fd }, .handler)

theorem allowed_map {e : Event Op S} : Allowed (e.map f) ↔ Allowed e := by
  cases e <;> exact Iff.rfl

theorem last_asks_map {events : List (Event Op S)} {op : Op} (asks : events.getLast? = some (.asks op)) :
    (events.map (Event.map f)).getLast? = some (.asks op) := by
  rw [List.getLast?_map, asks]
  rfl

/-- A handler that is a part of a larger program echoes, too. -/
theorem Echoes.embed {events : List (Event Op S)} {idle : Prop} (echo : Echoes c events idle) :
    Echoes c (events.map (Event.map f)) idle := by
  refine ⟨?_, ?_, fun rest quiet => ?_⟩
  · rw [exchanges_map]
    exact echo.sublist
  · rw [exchanges_map]
    exact echo.begins
  · rw [exchanges_map]
    exact echo.whole rest fun op asks => quiet op (last_asks_map asks)

/-- The handlers spawn nothing. -/
theorem spawns_nothing (k : Kind) (s : Running k) (task : Running .void) (next : Running k) :
    code k s ≠ .spawn task next := by
  obtain ⟨c, s⟩ := s
  intro spawn
  cases s <;> simp only [code, Conn.recvLoop, Conn.fixedLoop, Conn.leave] at spawn <;>
    (repeat' split at spawn) <;> cases spawn

/-- A worker of the echo server, from its boot task on: it has one handler for
each connection it has accepted, in the order of the accepts, and every one of
them echoes; nothing dangling is used and nothing aborts. -/
theorem echo_worker {listenFd : Int} {running : Nat → Bool} {slots : Nat → Conn} {moves : List (Move (Worker Running))}
    {w : World Unit Value Op (Worker Running)}
    (reach : RunWhile (step (worker (acceptOp listenFd) running (handlerOf slots) code)) (fun _ m => m.posted = none)
      (World.spawned {} (.test 0)) moves w)
    (kernel : ∀ entry ∈ w.log, Allowed entry.2) :
    w.fault = none ∧ w.aborted = false ∧
      w.started <+: .test 0 :: serving (handlerOf slots) ((resultsOf (w.events 0)).filter (0 ≤ ·)) ∧
      (w.stack = [] → w.started = .test 0 :: serving (handlerOf slots) ((resultsOf (w.events 0)).filter (0 ≤ ·))) ∧
      ∀ t c, w.started[t]? = some (.handler (c, State.handler)) → Echoes c (w.events t) (w.stack = []) := by
  have serves := TcpServer.worker_serves reach
  obtain ⟨_, handlers, follows⟩ := run_sound ((first_posted _).trans reach.run)
  have allowed : ∀ t (events : List (Event Op Running)), w.events t = events.map (Event.map fun _ => Worker.handler) →
      ∀ e ∈ events, Allowed e := by
    intro t events same e member
    have logged : e.map (fun _ => Worker.handler) ∈ w.events t := same ▸ List.mem_map_of_mem member
    exact allowed_map.mp (kernel _ (mem_events.mp logged))
  have quiet : ∀ t, t ≠ 0 → spawns (w.events t) = [] := by
    intro t later
    by_cases below : t < w.started.length
    · obtain ⟨s, at_t⟩ := serves.handlers t (Nat.pos_of_ne_zero later) below
      obtain ⟨events, g, trace, same, _⟩ := serves.alone t s at_t
      have nothing : spawns events = [] :=
        List.eq_nil_iff_forall_not_mem.mpr (trace.spawns_of_code (P := fun _ => False) spawns_nothing)
      rw [same, spawns_map, nothing, List.map_nil]
    · rw [follows.unstarted (Nat.not_lt.mp below), spawns, List.filterMap_nil]
  have started : w.started = .test 0 :: spawns (w.events 0) := by rw [serves.started, spawns_log quiet]
  have only : ∀ (t : Nat) (s : Running .void), w.started[t]? = some (Worker.handler s) → ∃ c, s = (c, State.handler) := by
    intro t s at_t
    rw [started] at at_t
    rcases List.mem_cons.mp (List.mem_of_getElem? at_t) with same | spawned
    · cases same
    · obtain ⟨n, below, same⟩ := List.mem_mapIdx.mp (serves.begun.subset spawned)
      cases same
      exact ⟨_, rfl⟩
  refine ⟨serves.fault, Bool.eq_false_iff.mpr fun aborted => ?_, ?_, fun idle => ?_, fun t c at_t => ?_⟩
  · obtain ⟨t, s, events, e, at_t, same, trace⟩ := serves.aborts aborted
    obtain ⟨c, rfl⟩ := only t s at_t
    exact (Stage.of_trace trace (allowed t events same)).no_error rfl
  · rw [started]
    exact List.cons_prefix_cons.mpr ⟨rfl, serves.begun⟩
  · rw [started, serves.complete idle]
  · obtain ⟨events, g, trace, same, rests⟩ := serves.alone t _ at_t
    have echo := echoes trace (allowed t events same)
    rw [same]
    exact Echoes.embed ⟨echo.sublist, echo.begins, fun idle => echo.whole (rests idle)⟩

/-- A connection is accepted, sends two bytes and gets them back. -/
def oneAccepted : List (Move (Worker Running)) :=
  [.execute, .complete 0 ⟨7, []⟩, .turn, .execute, .execute, .execute, .execute, .complete 1 ⟨2, [104, 105]⟩, .turn,
    .execute, .execute, .execute, .complete 3 ⟨2, []⟩, .turn, .execute, .execute, .execute]

theorem accepted_bytes_echoed :
    let w := after (step (worker (acceptOp 3) (fun _ => true) (handlerOf fun _ => slotted) code))
      (World.spawned {} (.test 0)) oneAccepted
    confirmed (w.exchanges 1) = [104, 105] := by
  intro w
  have reach : RunWhile (step (worker (acceptOp 3) (fun _ => true) (handlerOf fun _ => slotted) code))
      (fun _ m => m.posted.isNone = true) (World.spawned {} (.test 0)) oneAccepted w := guarded_run (run_eq_some rfl)
  have alone : RunWhile (step (worker (acceptOp 3) (fun _ => true) (handlerOf fun _ => slotted) code))
      (fun _ m => m.posted = none) (World.spawned {} (.test 0)) oneAccepted w :=
    reach.weaken fun _ _ _ _ met => Option.isNone_iff_eq_none.mp met
  obtain ⟨_, _, _, _, echo⟩ := echo_worker alone (by decide)
  exact (echo 1 slotted rfl).whole rfl (fun op asks => by cases asks; rfl) (by decide)

end CoroNet.EchoServer
