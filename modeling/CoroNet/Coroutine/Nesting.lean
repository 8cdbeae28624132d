import CoroNet.Coroutine.Body
import Mathlib.Data.List.Chain

namespace CoroNet.Coroutine

variable {E V : Type} {k : Kind}

/-- The turning points of a frame's life. -/
inductive Stage
  | created
  | started
  | finished
  | destroyed
deriving DecidableEq

def Event.stage : Event E V → Option (Stage × Handle)
  | .created h => some (.created, h)
  | .started h => some (.started, h)
  | .finished b => some (.finished, .task b)
  | .destroyed h => some (.destroyed, h)
  | .awaited .. | .continued .. => none

/-- How often a frame goes through a stage. -/
def passes (events : List (Event E V)) (stage : Stage) (h : Handle) : Nat :=
  (events.filterMap Event.stage).count (stage, h)

@[simp] theorem passes_nil (stage : Stage) (h : Handle) : passes ([] : List (Event E V)) stage h = 0 := rfl

theorem passes_append (events events' : List (Event E V)) (stage : Stage) (h : Handle) :
    passes (events ++ events') stage h = passes events stage h + passes events' stage h := by
  simp [passes]

theorem passes_single (e : Event E V) (stage : Stage) (h : Handle) :
    passes [e] stage h = if e.stage = some (stage, h) then 1 else 0 := by
  unfold passes
  cases turn : e.stage with
  | none => simp [turn]
  | some p => simp [turn, List.count_singleton]

theorem passes_cons (e : Event E V) (events : List (Event E V)) (stage : Stage) (h : Handle) :
    passes (e :: events) stage h = (if e.stage = some (stage, h) then 1 else 0) + passes events stage h := by
  rw [← passes_single e, ← passes_append]
  rfl

/-- Each frame that an evaluation makes is made, started, finished and
destroyed once, and its own frame is finished once. -/
theorem Body.passes_events (body : Body E V k) {b n : Nat} (older : b < n) (stage : Stage) (c : Nat) :
    passes (body.events b n) stage (.task c) =
      (if n ≤ c ∧ c < body.frames n then 1 else 0) + if stage = .finished ∧ c = b then 1 else 0 := by
  induction body generalizing b n with
  | ret | throw =>
    have none_new : ¬(n ≤ c ∧ c < n) := by omega
    simp [Body.events, Body.frames, passes_single, Event.stage, none_new, eq_comm]
  | await child next ih ih' =>
    have first := child.le_frames (n + 1)
    have second := (next child.eval).le_frames (child.frames (n + 1))
    have inside := ih (Nat.lt_add_one n)
    have rest := ih' child.eval (show b < child.frames (n + 1) by omega)
    simp only [Body.events, Body.frames, List.cons_append, List.nil_append, List.append_assoc, passes_cons,
      passes_append, inside, rest, Event.stage, reduceCtorEq, if_false, Nat.zero_add, Option.some.injEq,
      Prod.mk.injEq, Handle.task.injEq]
    by_cases here : c = n
    · subst here
      have other : c ≠ b := by omega
      have later : ¬child.frames (c + 1) ≤ c := by omega
      have mine : c < (next child.eval).frames (child.frames (c + 1)) := by omega
      cases stage <;> simp [other, later, mine]
    · simp only [here, Ne.symm here, and_false, if_false, Nat.zero_add, Nat.add_zero, ← Nat.add_assoc]
      congr 1
      have lower : n + 1 ≤ c ↔ n ≤ c := by omega
      by_cases early : c < child.frames (n + 1)
      · have bound : c < (next child.eval).frames (child.frames (n + 1)) := by omega
        simp [lower, early, bound]
      · have above : child.frames (n + 1) ≤ c := by omega
        have old : n ≤ c := by omega
        simp [early, above, old]

theorem Body.passes_shim (body : Body E V k) (b n : Nat) (stage : Stage) : passes (body.events b n) stage .shim = 0 := by
  induction body generalizing b n with
  | ret | throw => simp [Body.events, passes_single, Event.stage]
  | await child next ih ih' => simp [Body.events, passes_cons, passes_append, Event.stage, ih, ih']

/-- What may come right before an event: a child starts as soon as it is
awaited, its parent goes on when it is finished, and it is destroyed when its
parent has its result. Only the root, frame 0, is started and destroyed otherwise. -/
def Event.MayFollow (a : Event E V) : Event E V → Prop
  | .started (.task c) => c = 0 ∨ ∃ h, a = .awaited h c
  | .continued _ c _ => a = .finished c
  | .destroyed (.task c) => c = 0 ∨ ∃ h r, a = .continued h c r
  | _ => True

theorem Body.last_event (body : Body E V k) (b n : Nat) : (body.events b n).getLast? = some (.finished b) := by
  induction body generalizing b n with
  | ret | throw => rfl
  | await child next ih ih' =>
    have rest := ih' child.eval b (child.frames (n + 1))
    simp only [Body.events, List.getLast?_append, rest, Option.some_or]

theorem Body.first_event (body : Body E V k) {b n : Nat} (a : Event E V) :
    ∀ e ∈ (body.events b n).head?, a.MayFollow e := by
  cases body with
  | ret | throw =>
    rintro _ ⟨⟩
    trivial
  | await child next =>
    rintro _ ⟨⟩
    trivial

theorem Body.ordered_events (body : Body E V k) (b n : Nat) : (body.events b n).IsChain Event.MayFollow := by
  induction body generalizing b n with
  | ret | throw => exact .singleton _
  | @await j _ child next ih ih' =>
    have enter : [Event.created (.task n), .awaited (.task b) n, .started (.task n)].IsChain
        (Event.MayFollow (E := E) (V := V)) := by
      simp [Event.MayFollow]
    have leave : [Event.continued (.task b) n (j.erase child.eval), .destroyed (.task n)].IsChain
        (Event.MayFollow (E := E) (V := V)) := by
      simp [Event.MayFollow]
    refine ((enter.append (ih n (n + 1)) ?_).append leave ?_).append (ih' _ b _) ?_
    · exact fun a _ => child.first_event a
    · rintro _ last _ ⟨⟩
      rw [List.getLast?_append, child.last_event] at last
      exact (Option.some.inj last).symm
    · exact fun a _ => (next child.eval).first_event a

end CoroNet.Coroutine
