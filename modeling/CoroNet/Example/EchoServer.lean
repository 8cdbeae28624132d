import CoroNet.EventLoop.Independence
import CoroNet.Example.EchoStages

namespace CoroNet.EchoServer

open Coroutine (Kind)
open EventLoop Transition
open TcpConnection (Place Request send sendFixed wire)

variable {c : Conn} {exchanges : List (Op × Answer)} {op : Op} {r : Answer} {h h' : Handler Unit Value Op Running}
  {e : Event Op Running}

/-- A handler goes from stage to stage. -/
theorem Stage.move (stage : Stage c exchanges h) (moves : h.next code = some (e, h')) : Stage c exchanges h' := by
  cases stage with
  | handler none_yet =>
    subst none_yet
    by_cases slot : c.hasFixedSlot = true
    · simp only [Handler.begin, Handler.next, code, slot, if_true, Conn.fixedLoop, Option.some.injEq, Prod.mk.injEq] at moves
      obtain ⟨-, rfl⟩ := moves
      exact .recvFixed slot .start
    · simp only [Handler.begin, Handler.next, code, slot, Bool.false_eq_true, if_false, Conn.recvLoop,
        Option.some.injEq, Prod.mk.injEq] at moves
      obtain ⟨-, rfl⟩ := moves
      exact .recv (by simpa using slot) .make .start
  | recv plain clean echoed =>
    obtain ⟨buf', made, clean', room⟩ := clean.ensure
    simp only [Handler.next, code, made, Option.some.injEq, Prod.mk.injEq] at moves
    obtain ⟨-, rfl⟩ := moves
    exact .receiving plain clean' room echoed
  | recvResumed plain clean room within length echoed =>
    obtain ⟨buf', credited, holds, size⟩ := clean.credit room within length
    simp only [Handler.next, code, credited, Option.some.injEq, Prod.mk.injEq] at moves
    obtain ⟨-, rfl⟩ := moves
    exact .received plain holds size length within echoed
  | @received n buf data plain holds size length within echoed =>
    by_cases ended : n ≤ 0
    · simp only [Handler.next, code, ended, if_true, Conn.leave, Option.some.injEq, Prod.mk.injEq] at moves
      obtain ⟨-, rfl⟩ := moves
      have nothing : data = [] := List.eq_nil_of_length_eq_zero (by omega)
      subst nothing
      exact .shutdown (echoed.finish List.prefix_rfl fun _ => rfl)
    · simp only [Handler.next, code, ended, if_false, holds.retrieveAllAsString, Option.some.injEq, Prod.mk.injEq] at moves
      obtain ⟨-, rfl⟩ := moves
      exact .sending (.plain plain ⟨holds.retrieveAll, rfl, Or.inr size⟩) (by simp) (.start echoed (by omega))
  | @sending fixed data place transcript next onward slot_data sending =>
    cases place with
    | awaiting l =>
      simp only [Handler.next, code, Option.some.injEq, Prod.mk.injEq] at moves
      obtain ⟨-, rfl⟩ := moves
      exact .transmitting onward slot_data sending
    | returned n =>
      simp only [Handler.next, code, Callers.handOver, Option.some.injEq, Prod.mk.injEq] at moves
      obtain ⟨-, rfl⟩ := moves
      obtain ⟨part, prompt, steady⟩ := sending.returned
      cases onward with
      | plain plain clean =>
        refine .sent plain clean (sending.echoed.settle part fun faithful => prompt (faithful.resolve_right ?_))
        exact fun slotted => Bool.false_ne_true (plain.symm.trans slotted.1)
      | fixed slot =>
        refine .sentFixed slot (fun _ => sending.echoed.finish part prompt) fun nonneg => ?_
        exact sending.echoed.settle part fun faithful => faithful.elim prompt fun slotted => steady slotted.2 nonneg
  | sent plain clean echoed =>
    simp only [Handler.next, code, Conn.recvLoop, Option.some.injEq, Prod.mk.injEq] at moves
    obtain ⟨-, rfl⟩ := moves
    exact .recv plain clean echoed
  | recvFixed slot echoed =>
    simp only [Handler.next, code, Option.some.injEq, Prod.mk.injEq] at moves
    obtain ⟨-, rfl⟩ := moves
    exact .receivingFixed slot echoed
  | recvFixedResumed slot within length echoed slot_data =>
    simp only [Handler.next, code, Option.some.injEq, Prod.mk.injEq] at moves
    obtain ⟨-, rfl⟩ := moves
    exact .viewed slot within length echoed slot_data
  | @viewed n data slot within length echoed slot_data =>
    by_cases ended : n ≤ 0
    · simp only [Handler.next, code, ended, if_true, Conn.leave, Option.some.injEq, Prod.mk.injEq] at moves
      obtain ⟨-, rfl⟩ := moves
      have nothing : data = [] := List.eq_nil_of_length_eq_zero (by omega)
      subst nothing
      exact .shutdown (echoed.finish List.prefix_rfl fun _ => rfl)
    · simp only [Handler.next, code, ended, if_false, TcpConnection.sendFixed_eq_send, Option.some.injEq,
        Prod.mk.injEq] at moves
      obtain ⟨-, rfl⟩ := moves
      rw [← length, List.take_length]
      exact .sending (.fixed slot) (fun _ => slot_data) (.start echoed (by omega))
  | @sentFixed n slot failed succeeded =>
    by_cases negative : n < 0
    · simp only [Handler.next, code, negative, if_true, Conn.leave, Option.some.injEq, Prod.mk.injEq] at moves
      obtain ⟨-, rfl⟩ := moves
      exact .shutdown (failed negative)
    · simp only [Handler.next, code, negative, if_false, Conn.fixedLoop, Option.some.injEq, Prod.mk.injEq] at moves
      obtain ⟨-, rfl⟩ := moves
      exact .recvFixed slot (succeeded (Int.not_lt.mp negative))
  | shutdown finished =>
    by_cases closed : c.fd < 0
    · simp only [Handler.next, code, closed, if_true, Option.some.injEq, Prod.mk.injEq] at moves
      obtain ⟨-, rfl⟩ := moves
      exact .shut finished
    · simp only [Handler.next, code, closed, if_false, Option.some.injEq, Prod.mk.injEq] at moves
      obtain ⟨-, rfl⟩ := moves
      exact .shuttingDown finished
  | shutdownResumed finished =>
    simp only [Handler.next, code, Option.some.injEq, Prod.mk.injEq] at moves
    obtain ⟨-, rfl⟩ := moves
    exact .shut finished
  | shut finished =>
    simp only [Handler.next, code, Option.some.injEq, Prod.mk.injEq] at moves
    obtain ⟨-, rfl⟩ := moves
    exact .ended finished
  | receiving | transmitting | receivingFixed | shuttingDown | ended => cases moves

theorem Finished.shutdown (finished : Finished c exchanges) (neither : op.sends = false) (nothing : op.received r = []) :
    Finished c (exchanges ++ [(op, r)]) := by
  have into : received (exchanges ++ [(op, r)]) = received exchanges := by rw [received_append, nothing, List.append_nil]
  have out : confirmed (exchanges ++ [(op, r)]) = confirmed exchanges := by
    rw [confirmed_append, Op.confirmed, neither]
    simp
  refine ⟨?_, fun faithful => ?_, fun prompt => ?_⟩
  · rw [into, out]
    exact finished.sublist
  · rw [into, out]
    exact finished.begins faithful.before
  · rw [into, out]
    exact finished.whole (prompt_append prompt).1

theorem Stage.answer {k : Kind} {next : Answer → Running k} {callers : Callers Unit Value Running k}
    (stage : Stage c exchanges (.blocked op next callers)) (answers : op.Answers r) :
    Stage c (exchanges ++ [(op, r)]) (.exec (next r) callers) := by
  cases stage with
  | receiving plain clean room echoed =>
    obtain ⟨within, length⟩ := answers
    rw [room] at within
    exact .recvResumed plain clean room within length (echoed.receive rfl)
  | transmitting onward slot_data sending =>
    have resumed := sending.resume answers
    simp only [TcpConnection.sendFixed_eq_send, ite_self]
    refine .sending onward (fun fixed => (slot_data fixed).trans (slotData_keep exchanges ?_ r).symm) resumed
    subst fixed
    rfl
  | receivingFixed slot echoed =>
    obtain ⟨within, length⟩ := answers
    have small := c.small
    exact .recvFixedResumed slot (by omega) length (echoed.receive rfl) (slotData_fill exchanges rfl r).symm
  | shuttingDown finished => exact .shutdownResumed (finished.shutdown rfl rfl)

/-- What the kernel may answer to a handler. -/
def Allowed {S : Kind → Type} : Event Op S → Prop
  | .answered op r => op.Answers r
  | _ => True

instance {S : Kind → Type} : DecidablePred (Allowed : Event Op S → Prop) := fun e =>
  match e with
  | .answered op r => inferInstanceAs (Decidable (op.Answers r))
  | .silent | .asks _ | .spawns _ => .isTrue trivial

theorem Stage.of_trace {events : List (Event Op Running)} (trace : Handler.Trace code (.begin (c, .handler)) events h)
    (kernel : ∀ e ∈ events, Allowed e) : Stage c (EventLoop.exchanges events) h := by
  suffices kept : (∀ e ∈ events, Allowed e) → Stage c (EventLoop.exchanges events) h from kept kernel
  refine trace.invariant (P := fun events h => (∀ e ∈ events, Allowed e) → Stage c (EventLoop.exchanges events) h)
    (fun _ => .handler rfl) (fun stage moved kernel => ?_) fun stage kernel => ?_
  · rw [Handler.exchanges_move moved]
    exact (stage fun e member => kernel e (List.mem_append_left _ member)).move moved
  · have answers := kernel _ (List.mem_append_right _ (List.mem_singleton_self _))
    have answered := (stage fun e member => kernel e (List.mem_append_left _ member)).answer answers
    simpa [EventLoop.exchanges] using answered

/-- Whatever has been received, a part of it has been sent back, and where no
send has failed what is missing is at its end. -/
theorem delivered (stage : Stage c exchanges h) : (confirmed exchanges).Sublist (received exchanges) ∧
    (Faithful c exchanges → confirmed exchanges <+: received exchanges) := by
  have part : ∀ {data sent}, Echoed c exchanges data sent → sent <+: data →
      (confirmed exchanges).Sublist (received exchanges) ∧
        (Faithful c exchanges → confirmed exchanges <+: received exchanges) := by
    intro data sent echoed part
    obtain ⟨before, echo, into, out, sublist, same⟩ := echoed
    rw [into, out]
    exact ⟨sublist.append part.sublist, fun faithful => same faithful ▸ (List.prefix_append_right_inj before).mpr part⟩
  cases stage with
  | handler none_yet =>
    subst none_yet
    exact part .start List.prefix_rfl
  | recv _ _ echoed | receiving _ _ _ echoed | recvResumed _ _ _ _ _ echoed | received _ _ _ _ _ echoed
  | sent _ _ echoed | recvFixed _ echoed | receivingFixed _ echoed | recvFixedResumed _ _ _ echoed _
  | viewed _ _ _ echoed _ => exact part echoed List.nil_prefix
  | sending _ _ sending | transmitting _ _ sending =>
    exact part sending.echoed (sending.sound.exact sending.small rfl).begins
  | @sentFixed n _ failed succeeded =>
    by_cases negative : n < 0
    · exact ⟨(failed negative).sublist, (failed negative).begins⟩
    · exact part (succeeded (Int.not_lt.mp negative)) List.prefix_rfl
  | shutdown finished | shuttingDown finished | shutdownResumed finished | shut finished | ended finished =>
    exact ⟨finished.sublist, finished.begins⟩

/-- A handler that waits for something else than a send, or has ended, has
sent all back where every send took something. -/
theorem sent_back (stage : Stage c exchanges h) (rest : h.next code = none)
    (quiet : ∀ op, h.asks = some op → op.sends = false) (prompt : Prompt exchanges) :
    confirmed exchanges = received exchanges := by
  have all : Echoed c exchanges [] [] → confirmed exchanges = received exchanges := by
    rintro ⟨before, echo, into, out, sublist, same⟩
    rw [into, out, same (Or.inl prompt)]
  cases stage with
  | receiving _ _ _ echoed | receivingFixed _ echoed => exact all echoed
  | @transmitting fixed data l _ _ _ _ _ =>
    exact absurd ((quiet _ rfl).symm.trans (sendOp_sends (r := {}) c fixed data l).1) Bool.false_ne_true
  | shuttingDown finished | ended finished => exact finished.whole prompt
  | handler | recv | recvResumed | received | sending | sent | recvFixed | recvFixedResumed | viewed | sentFixed
  | shutdown | shutdownResumed | shut => exact absurd rest (Handler.next_exec _ _)

/-- What the handler of a connection does: it sends back, in order, a part of
what it has received. Where its sends have taken something each time (or, with
a slot, have not ended at nothing) that is the first part of it; and all of it,
whenever the handler waits for more or has returned. -/
structure Echoes {S : Kind → Type} (c : Conn) (events : List (Event Op S)) (idle : Prop) : Prop where
  sublist : (confirmed (EventLoop.exchanges events)).Sublist (received (EventLoop.exchanges events))
  begins : Faithful c (EventLoop.exchanges events) →
    confirmed (EventLoop.exchanges events) <+: received (EventLoop.exchanges events)
  whole : idle → (∀ op, events.getLast? = some (.asks op) → op.sends = false) → Prompt (EventLoop.exchanges events) →
    confirmed (EventLoop.exchanges events) = received (EventLoop.exchanges events)

theorem echoes {events : List (Event Op Running)} (trace : Handler.Trace code (.begin (c, .handler)) events h)
    (kernel : ∀ e ∈ events, Allowed e) : Echoes c events (h.next code = none) := by
  have stage := Stage.of_trace trace kernel
  obtain ⟨sublist, begins⟩ := delivered stage
  exact ⟨sublist, begins, fun rest quiet => sent_back stage rest fun op asks => quiet op (trace.last_asks asks)⟩

theorem Stage.no_error {e : Unit} (stage : Stage c exchanges h) : h ≠ .ended (.error e) := by
  cases stage <;> exact nofun

/-- Whatever connections there are and however their operations complete:
nothing dangling is used, nothing aborts, and every handler echoes. -/
theorem echo_server {moves : List (Move Running)} {w : World Unit Value Op Running} (reach : Run (step code) {} moves w)
    (served : ∀ task ∈ w.started, ∃ c, task = (c, State.handler)) (kernel : ∀ entry ∈ w.log, Allowed entry.2) :
    w.fault = none ∧ w.aborted = false ∧
      ∀ t c, w.started[t]? = some (c, State.handler) → Echoes c (w.events t) (w.stack = []) := by
  obtain ⟨fault, handlers, rep, traces, threw⟩ := handlers_run_alone reach
  have allowed : ∀ t, ∀ e ∈ w.events t, Allowed e := fun t e member => kernel (t, e) (mem_events.mp member)
  refine ⟨fault, Bool.eq_false_iff.mpr fun aborted => ?_, fun t c at_t => ?_⟩
  · obtain ⟨t, below, e, ended⟩ := threw aborted
    obtain ⟨c, same⟩ := served _ (List.getElem_mem below)
    have stage := Stage.of_trace (traces t _ (List.getElem?_eq_some_iff.mpr ⟨below, same⟩)) (allowed t)
    exact stage.no_error ended
  · have echo := echoes (traces t _ at_t) (allowed t)
    exact ⟨echo.sublist, echo.begins, fun idle => echo.whole (rep.rests code idle (List.getElem?_eq_some_iff.mp at_t).1)⟩

def slotted : Conn := { fd := 7, bufIndex := 0, slot := 4096, slotSize := 16, small := by decide }

/-- A connection sends two bytes and gets them back. -/
def twoBytes : List (Move Running) :=
  [.spawn (slotted, .handler), .execute, .execute, .complete 0 ⟨2, [104, 105]⟩, .turn, .execute, .execute, .execute,
    .complete 1 ⟨2, []⟩, .turn, .execute, .execute, .execute]

theorem two_bytes_echoed : confirmed ((after (step code) {} twoBytes).exchanges 0) = [104, 105] := by
  have reach : Run (step code) {} twoBytes (after (step code) {} twoBytes) := run_eq_some rfl
  have served : ∀ task ∈ (after (step code) {} twoBytes).started, ∃ c, task = (c, State.handler) :=
    fun _ member => ⟨slotted, List.mem_singleton.mp member⟩
  obtain ⟨_, _, echoes⟩ := echo_server reach served (by decide)
  exact (echoes 0 slotted rfl).whole rfl (fun op asks => by cases asks; rfl) (by decide)

end CoroNet.EchoServer
