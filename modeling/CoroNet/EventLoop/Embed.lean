import CoroNet.EventLoop.Handler

namespace CoroNet.EventLoop

open Coroutine (Kind)

variable {E V A : Type} {S S' : Kind → Type} {k : Kind} {code : Code E V A S} {code' : Code E V A S'}
  {f : ∀ k, S k → S' k}

/-- A program as a part of another one, whose states of it are `f`. -/
def Act.map (f : ∀ k, S k → S' k) {k : Kind} : Act E V A S k → Act E V A S' k
  | .ret r => .ret r
  | .throw e => .throw e
  | .await child next => .await (f _ child) fun r => f _ (next r)
  | .io op next => .io op fun r => f _ (next r)
  | .spawn task next => .spawn (f _ task) (f _ next)

def Callers.map (f : ∀ k, S k → S' k) {k : Kind} : Callers E V S k → Callers E V S' k
  | .nobody => .nobody
  | .caller next callers => .caller (fun r => f _ (next r)) (callers.map f)

def Handler.map (f : ∀ k, S k → S' k) : Handler E V A S → Handler E V A S'
  | .exec s callers => .exec (f _ s) (callers.map f)
  | .blocked op next callers => .blocked op (fun r => f _ (next r)) (callers.map f)
  | .ended r => .ended r

def Event.map (f : ∀ k, S k → S' k) : Event A S → Event A S'
  | .silent => .silent
  | .asks op => .asks op
  | .spawns task => .spawns (f _ task)
  | .answered op r => .answered op r

/-- In its states the other program does what this one does. -/
def Embeds (code : Code E V A S) (code' : Code E V A S') (f : ∀ k, S k → S' k) : Prop :=
  ∀ (k : Kind) (s : S k), code' k (f k s) = (code k s).map f

theorem Callers.handOver_map (callers : Callers E V S k) (r : Except E (k.Ret V)) :
    (callers.map f).handOver r = (callers.handOver r : Handler E V A S).map f := by
  cases callers <;> rfl

theorem Embeds.next (embeds : Embeds code code' f) (h : Handler E V A S) :
    (h.map f).next code' = (h.next code).map fun x => (x.1.map f, x.2.map f) := by
  cases h with
  | exec s callers =>
    have same := embeds _ s
    cases act : code _ s <;>
      simp only [act, Act.map] at same <;>
      simp [Handler.map, Handler.next, same, act, Callers.handOver_map, Event.map, Callers.map]
  | blocked op next callers => rfl
  | ended r => rfl

theorem exchanges_map (events : List (Event A S)) :
    exchanges (events.map (Event.map f)) = exchanges events := by
  rw [exchanges, List.filterMap_map]
  refine List.filterMap_congr fun e _ => ?_
  cases e <;> rfl

theorem spawns_map (events : List (Event A S)) :
    spawns (events.map (Event.map f)) = (spawns events).map (f .void) := by
  rw [spawns, spawns, List.filterMap_map, List.map_filterMap]
  refine List.filterMap_congr fun e _ => ?_
  cases e <;> rfl

/-- What it does as a part is what it does alone. -/
theorem Embeds.trace (embeds : Embeds code code' f) {h : Handler E V A S} {events' : List (Event A S')}
    {g' : Handler E V A S'} (trace : Handler.Trace code' (h.map f) events' g') :
    ∃ events g, Handler.Trace code h events g ∧ events' = events.map (Event.map f) ∧ g' = g.map f := by
  generalize same : h.map f = h' at trace
  induction trace generalizing h with
  | start => exact ⟨[], h, .start h, rfl, same.symm⟩
  | move moved _ ih =>
    rw [← same, embeds.next] at moved
    obtain ⟨⟨e, next⟩, here, both⟩ := Option.map_eq_some_iff.mp moved
    cases both
    obtain ⟨events, g, rest, rfl, rfl⟩ := ih rfl
    exact ⟨e :: events, g, .move here rest, rfl, rfl⟩
  | @answer k op _ _ _ r _ _ ih =>
    cases h with
    | @blocked k' op' next callers =>
      cases same
      obtain ⟨events, g, rest, rfl, rfl⟩ := ih (h := .exec (next r) callers) rfl
      exact ⟨.answered op r :: events, g, .answer rest, rfl, rfl⟩
    | exec => cases same
    | ended => cases same

end CoroNet.EventLoop
