import CoroNet.Coroutine.Body

namespace CoroNet.EventLoop

open Coroutine (Kind)

/-- What the kernel answers to an operation: `res`, and the bytes it has put
where the operation said. -/
structure Answer where
  res : Int := 0
  data : List UInt8 := []

/-- What a coroutine of the kind does next: it returns, lets an exception out,
awaits a new child `Task`, awaits an operation (those of `A`), or gives a
`Task<void>` to `Scheduler::spawn`. `S` are the states of the bodies; a body
may go on for ever. -/
inductive Act (E V A : Type) (S : Kind → Type) (k : Kind)
  | ret (r : k.Ret V)
  | throw (e : E)
  | await {j : Kind} (child : S j) (next : Except E (j.Ret V) → S k)
  | io (op : A) (next : Answer → S k)
  | spawn (task : S .void) (next : S k)

/-- The coroutine functions of a program. -/
abbrev Code (E V A : Type) (S : Kind → Type) := ∀ k : Kind, S k → Act E V A S k

/-- The callers of a coroutine, each with what it does with the outcome of the
one it calls; the last is called by nobody. -/
inductive Callers (E V : Type) (S : Kind → Type) : Kind → Type
  | nobody : Callers E V S .void
  | caller {j k : Kind} (next : Except E (j.Ret V) → S k) (callers : Callers E V S k) : Callers E V S j

/-- A spawned handler as a sequential program: an await is a call, and an
operation blocks. -/
inductive Handler (E V A : Type) (S : Kind → Type)
  | exec {k : Kind} (s : S k) (callers : Callers E V S k)
  | blocked {k : Kind} (op : A) (next : Answer → S k) (callers : Callers E V S k)
  | ended (result : Except E Unit)

inductive Event (A : Type) (S : Kind → Type)
  | silent
  | asks (op : A)
  | spawns (task : S .void)
  | answered (op : A) (r : Answer)

variable {E V A : Type} {S : Kind → Type} {k : Kind} {code : Code E V A S}

def Callers.handOver {k : Kind} : Callers E V S k → Except E (k.Ret V) → Handler E V A S
  | .nobody, r => .ended r
  | .caller next callers, r => .exec (next r) callers

namespace Handler

def begin (task : S .void) : Handler E V A S := .exec task .nobody

/-- The next step of a handler that is not blocked. -/
def next (code : Code E V A S) : Handler E V A S → Option (Event A S × Handler E V A S)
  | .exec s callers =>
    match code _ s with
    | .ret r => some (.silent, callers.handOver (.ok r))
    | .throw e => some (.silent, callers.handOver (.error e))
    | .await child next => some (.silent, .exec child (.caller next callers))
    | .io op next => some (.asks op, .blocked op next callers)
    | .spawn task next => some (.spawns task, .exec next callers)
  | _ => none

/-- What a handler does alone, when its operations get these answers. -/
inductive Trace (code : Code E V A S) : Handler E V A S → List (Event A S) → Handler E V A S → Prop
  | start (h : Handler E V A S) : Trace code h [] h
  | move {h h' g : Handler E V A S} {e : Event A S} {events : List (Event A S)} :
      h.next code = some (e, h') → Trace code h' events g → Trace code h (e :: events) g
  | answer {k : Kind} {op : A} {next : Answer → S k} {callers : Callers E V S k} {g : Handler E V A S}
      {r : Answer} {events : List (Event A S)} :
      Trace code (.exec (next r) callers) events g → Trace code (.blocked op next callers) (.answered op r :: events) g

end Handler

/-- The answers among the events. -/
def answers (events : List (Event A S)) : List Answer :=
  events.filterMap fun
    | .answered _ r => some r
    | _ => none

/-- The operations that have been answered, with their answers. -/
def exchanges (events : List (Event A S)) : List (A × Answer) :=
  events.filterMap fun
    | .answered op r => some (op, r)
    | _ => none

/-- The tasks that the events give to `spawn`. -/
def spawns (events : List (Event A S)) : List (S .void) :=
  events.filterMap fun
    | .spawns task => some task
    | _ => none

namespace Handler

variable {h h' g g' : Handler E V A S} {e : Event A S} {events events' : List (Event A S)}

theorem Trace.trans (first : Trace code h events g) (second : Trace code g events' g') :
    Trace code h (events ++ events') g' := by
  induction first with
  | start => exact second
  | move moved _ ih => exact .move moved (ih second)
  | answer _ ih => exact .answer (ih second)

/-- A handler gives itself no answer. -/
theorem answers_move (moved : h.next code = some (e, h')) (events : List (Event A S)) :
    answers (e :: events) = answers events := by
  unfold next at moved
  split at moved
  · split at moved <;> cases Option.some.inj moved <;> rfl
  · cases moved

theorem exchanges_move (moved : h.next code = some (e, h')) (before : List (Event A S)) :
    exchanges (before ++ [e]) = exchanges before := by
  unfold next at moved
  split at moved
  · split at moved <;> cases Option.some.inj moved <;> simp [exchanges]
  · cases moved

theorem next_exec (s : S k) (callers : Callers E V S k) : (Handler.exec s callers).next code ≠ none := by
  cases act : code k s <;> simp [next, act]

/-- What a handler does depends on its program and on the answers to its own
operations: where the answers agree, so do the events. -/
theorem Trace.comparable (first : Trace code h events g) (second : Trace code h events' g')
    (agree : answers events <+: answers events') : events <+: events' ∨ events' <+: events := by
  induction first generalizing events' with
  | start => exact Or.inl List.nil_prefix
  | move moved _ ih =>
    cases second with
    | start => exact Or.inr List.nil_prefix
    | move moved' rest' =>
      cases Option.some.inj (moved.symm.trans moved')
      rw [answers_move moved, answers_move moved] at agree
      exact (ih rest' agree).imp (List.cons_prefix_cons.mpr ⟨rfl, ·⟩) (List.cons_prefix_cons.mpr ⟨rfl, ·⟩)
    | answer _ => cases moved
  | @answer _ _ _ _ _ r events _ ih =>
    cases second with
    | start => exact Or.inr List.nil_prefix
    | move moved' _ => cases moved'
    | @answer _ _ _ _ _ r' events' rest' =>
      have both : r :: answers events <+: r' :: answers events' := agree
      obtain ⟨rfl, tails⟩ := List.cons_prefix_cons.mp both
      exact (ih rest' tails).imp (List.cons_prefix_cons.mpr ⟨rfl, ·⟩) (List.cons_prefix_cons.mpr ⟨rfl, ·⟩)

/-- A handler that is blocked or has ended stays so until it gets an answer. -/
theorem Trace.rests (first : Trace code h events g) (rest : g.next code = none)
    (second : Trace code h (events ++ events') g') (same : answers events' = []) : events' = [] ∧ g' = g := by
  induction first with
  | start h =>
    cases second with
    | start => exact ⟨rfl, rfl⟩
    | move moved _ => cases rest.symm.trans moved
    | answer _ => cases same
  | move moved _ ih =>
    cases second with
    | move moved' rest' =>
      cases Option.some.inj (moved.symm.trans moved')
      exact ih rest rest'
    | answer _ => cases moved
  | answer _ ih =>
    cases second with
    | move moved' _ => cases moved'
    | answer rest' => exact ih rest rest'

/-- The same answers and nothing left to do without another one: the same
events, and the same place in the program. -/
theorem Trace.unique (first : Trace code h events g) (second : Trace code h events' g')
    (rest : g.next code = none) (rest' : g'.next code = none) (same : answers events = answers events') :
    events = events' ∧ g = g' := by
  rcases first.comparable second (same ▸ List.prefix_rfl) with longer | longer
  · obtain ⟨more, rfl⟩ := longer
    have none_more : answers more = [] := by simpa [answers] using same
    obtain ⟨rfl, rfl⟩ := first.rests rest second none_more
    exact ⟨(List.append_nil events).symm, rfl⟩
  · obtain ⟨more, rfl⟩ := longer
    have none_more : answers more = [] := by simpa [answers] using same
    obtain ⟨rfl, rfl⟩ := second.rests rest' first none_more
    exact ⟨List.append_nil events', rfl⟩

end Handler

/-- The rule for invariants of a handler. -/
theorem Handler.Trace.invariant {P : List (Event A S) → Handler E V A S → Prop} {h g : Handler E V A S}
    {events : List (Event A S)} (trace : Trace code h events g) (initial : P [] h)
    (move : ∀ {before h e h'}, P before h → h.next code = some (e, h') → P (before ++ [e]) h')
    (answer : ∀ {k : Kind} {before : List (Event A S)} {op : A} {next : Answer → S k} {callers : Callers E V S k}
      {r : Answer}, P before (.blocked op next callers) → P (before ++ [.answered op r]) (.exec (next r) callers)) :
    P events g := by
  suffices whole : ∀ before, P before h → P (before ++ events) g from whole [] initial
  clear initial
  induction trace with
  | start => exact fun before held => by rwa [List.append_nil]
  | move moved _ ih =>
    intro before held
    rw [List.append_cons]
    exact ih _ (move held moved)
  | answer _ ih =>
    intro before held
    rw [List.append_cons]
    exact ih _ (answer held)

/-- The tasks that a handler spawns are those that its program spawns. -/
theorem Handler.Trace.spawns_of_code {P : S .void → Prop} {h g : Handler E V A S} {events : List (Event A S)}
    (trace : Trace code h events g) (program : ∀ k s task next, code k s = .spawn task next → P task) :
    ∀ task ∈ spawns events, P task := by
  refine trace.invariant (P := fun events _ => ∀ task ∈ spawns events, P task) nofun
    (fun {before h e h'} held moved task member => ?_) fun {k before op next callers r} held task member => ?_
  · rw [spawns, List.filterMap_append, List.mem_append] at member
    rcases member with before | new
    · exact held task before
    unfold Handler.next at moved
    split at moved
    next k s callers =>
      cases act : code k s with
      | spawn task' next =>
        simp only [act, Option.some.injEq, Prod.mk.injEq] at moved
        obtain ⟨rfl, -⟩ := moved
        cases List.mem_singleton.mp new
        exact program k s _ next act
      | _ =>
        simp only [act, Option.some.injEq, Prod.mk.injEq] at moved
        obtain ⟨rfl, -⟩ := moved
        cases new
    next => cases moved
  · rw [spawns, List.filterMap_append, List.mem_append] at member
    exact held task (member.resolve_right List.not_mem_nil)

/-- The operation that a handler waits for. -/
def Handler.asks : Handler E V A S → Option A
  | .blocked op _ _ => some op
  | _ => none

/-- A handler that waits for an operation has just asked for it. -/
theorem Handler.Trace.last_asks {task : S .void} {g : Handler E V A S} {events : List (Event A S)} {op : A}
    (trace : Trace code (.begin task) events g) (asks : g.asks = some op) : events.getLast? = some (.asks op) := by
  suffices kept : ∀ op, g.asks = some op → events.getLast? = some (.asks op) from kept op asks
  refine trace.invariant (P := fun events h => ∀ op, h.asks = some op → events.getLast? = some (.asks op))
    nofun (fun {before h e h'} _ moved op asks => ?_) fun _ _ => nofun
  unfold next at moved
  split at moved
  · split at moved <;> cases Option.some.inj moved
    · cases ‹Callers E V S _› <;> cases asks
    · cases ‹Callers E V S _› <;> cases asks
    · cases asks
    · cases asks
      exact List.getLast?_concat
    · cases asks
  · cases moved

end CoroNet.EventLoop
