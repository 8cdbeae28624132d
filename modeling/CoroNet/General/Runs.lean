import Mathlib.Data.List.Basic

namespace Transition

variable {σ α : Type*} {step : σ → α → Option σ}

/-- Executes a list of actions; the empty answer means that some action was
not enabled where it was due. Used to evaluate concrete schedules. -/
def run (step : σ → α → Option σ) : σ → List α → Option σ
  | s, [] => some s
  | s, a :: rest => (step s a).bind fun t => run step t rest

/-- The runs all of whose steps meet a condition on the action and on the
state it is taken in. -/
inductive RunWhile (step : σ → α → Option σ) (cond : σ → α → Prop) (s : σ) : List α → σ → Prop
  | start : RunWhile step cond s [] s
  | next {acts : List α} {t u : σ} {a : α} :
      RunWhile step cond s acts t → cond t a → step t a = some u →
      RunWhile step cond s (acts ++ [a]) u

/-- Every finite run, under any schedule. -/
def Run (step : σ → α → Option σ) : σ → List α → σ → Prop :=
  RunWhile step fun _ _ => True

variable {cond cond' : σ → α → Prop} {s t u : σ} {acts more : List α} {a : α}

theorem Run.start : Run step s [] s :=
  RunWhile.start

theorem Run.next (reach : Run step s acts t) (move : step t a = some u) : Run step s (acts ++ [a]) u :=
  RunWhile.next reach trivial move

theorem RunWhile.weaken (reach : RunWhile step cond s acts t)
    (weaker : ∀ t a u, step t a = some u → cond t a → cond' t a) : RunWhile step cond' s acts t := by
  induction reach with
  | start => exact .start
  | next _ met move ih => exact .next ih (weaker _ _ _ move met) move

theorem RunWhile.run (reach : RunWhile step cond s acts t) : Run step s acts t :=
  reach.weaken fun _ _ _ _ _ => trivial

theorem RunWhile.trans (first : RunWhile step cond s acts t) (second : RunWhile step cond t more u) :
    RunWhile step cond s (acts ++ more) u := by
  induction second with
  | start => simpa using first
  | next _ met move ih => simpa only [List.append_assoc] using RunWhile.next ih met move

theorem Run.trans (first : Run step s acts t) (second : Run step t more u) : Run step s (acts ++ more) u :=
  RunWhile.trans first second

theorem Run.single (move : step s a = some t) : Run step s [a] t :=
  Run.next Run.start move

/-- The rule for invariants: what holds at the start and is kept by every
step that meets the condition holds in every state of such a run. -/
theorem RunWhile.invariant {P : σ → Prop} (reach : RunWhile step cond s acts t) (initial : P s)
    (keep : ∀ {t a u}, P t → cond t a → step t a = some u → P u) : P t := by
  induction reach with
  | start => exact initial
  | next _ met move ih => exact keep ih met move

theorem Run.invariant {P : σ → Prop} (reach : Run step s acts t) (initial : P s)
    (keep : ∀ {t a u}, P t → step t a = some u → P u) : P t :=
  RunWhile.invariant reach initial fun held _ move => keep held move

/-- A run meets the condition throughout, or the first step that does not has
led to something that no step ends. -/
theorem Run.meets_or {P : σ → Prop} (reach : Run step s acts t)
    (breaks : ∀ {before t a u}, RunWhile step cond s before t → step t a = some u → ¬ cond t a → P u)
    (stays : ∀ {before t a u}, Run step s before t → step t a = some u → P t → P u) :
    RunWhile step cond s acts t ∨ P t := by
  induction reach with
  | start => exact Or.inl .start
  | @next _ t _ a before _ move ih =>
    rcases ih with good | broken
    · by_cases met : cond t a
      · exact Or.inl (.next good met move)
      · exact Or.inr (breaks good move met)
    · exact Or.inr (stays before move broken)

/-- A machine with more in its states runs as the one it extends. -/
theorem RunWhile.project {τ : Type*} {larger : τ → α → Option τ} {s t : τ} (view : τ → σ)
    (reach : RunWhile larger (fun t a => cond (view t) a) s acts t)
    (follows : ∀ {t a u}, larger t a = some u → step (view t) a = some (view u)) :
    RunWhile step cond (view s) acts (view t) := by
  induction reach with
  | start => exact .start
  | next _ met move ih => exact .next ih met (follows move)

/-- A machine runs the same when something is recorded beside it. -/
theorem Run.observe {τ : Type*} {larger : τ → α → Option τ} {x : τ} (view : τ → σ) (reach : Run step (view x) acts t)
    (follows : ∀ {y a u}, step (view y) a = some u → ∃ z, larger y a = some z ∧ view z = u) :
    ∃ y, Run larger x acts y ∧ view y = t := by
  induction reach with
  | start => exact ⟨x, .start, rfl⟩
  | next _ _ move ih =>
    obtain ⟨y, before, rfl⟩ := ih
    obtain ⟨z, moved, same⟩ := follows move
    exact ⟨z, before.next moved, same⟩

theorem run_eq_some {s t : σ} {acts : List α} (h : run step s acts = some t) : Run step s acts t := by
  induction acts generalizing s with
  | nil =>
    cases Option.some.inj h
    exact .start
  | cons a rest ih =>
    obtain ⟨u, move, h⟩ := Option.bind_eq_some_iff.mp h
    exact Run.trans (Run.single move) (ih h)

theorem run_append (s : σ) (acts more : List α) :
    run step s (acts ++ more) = (run step s acts).bind fun t => run step t more := by
  induction acts generalizing s with
  | nil => rfl
  | cons a rest ih =>
    simp only [List.cons_append, run]
    cases step s a with
    | none => rfl
    | some t => exact ih t

theorem Run.run_eq (reach : Run step s acts t) : run step s acts = some t := by
  induction reach with
  | start => rfl
  | next _ _ move ih => rw [run_append, ih, Option.bind_some, run, move, Option.bind_some, run]

/-- A machine without a choice comes from any state of its run to the end of the run. -/
theorem Run.toEnd {step : σ → Unit → Option σ} {acts more : List Unit} (reach : Run step s acts t)
    (final : Run step s more u) (ended : step u () = none) : ∃ rest, Run step t rest u := by
  have same : ∀ xs ys : List Unit, xs.length = ys.length → xs = ys := fun xs ys length =>
    List.ext_getElem length fun _ _ _ => rfl
  rcases Nat.le_total acts.length more.length with shorter | longer
  · have split : more = acts ++ more.drop acts.length := same _ _ (by simp; omega)
    have whole := final.run_eq
    rw [split, run_append, reach.run_eq, Option.bind_some] at whole
    exact ⟨_, run_eq_some whole⟩
  · have split : acts = more ++ acts.drop more.length := same _ _ (by simp; omega)
    have whole := reach.run_eq
    rw [split, run_append, final.run_eq, Option.bind_some] at whole
    cases rest : acts.drop more.length with
    | nil =>
      rw [rest] at whole
      cases Option.some.inj whole
      exact ⟨_, .start⟩
    | cons a tail =>
      rw [rest, run, ended] at whole
      cases whole

/-- The state a schedule leads to; meant for schedules that can be executed. -/
def after (step : σ → α → Option σ) (s : σ) (acts : List α) : σ := (run step s acts).getD s

theorem run_after {s : σ} {acts : List α} (enabled : (run step s acts).isSome = true) :
    Run step s acts (after step s acts) := by
  obtain ⟨t, done⟩ := Option.isSome_iff_exists.mp enabled
  have reach := run_eq_some done
  rwa [after, done, Option.getD_some]

/-- The machine that stops at a step which does not meet the condition. -/
def guarded (cond : σ → α → Bool) (step : σ → α → Option σ) (s : σ) (a : α) : Option σ :=
  if cond s a then step s a else none

theorem guarded_run {s t : σ} {acts : List α} {cond : σ → α → Bool} (reach : Run (guarded cond step) s acts t) :
    RunWhile step (fun s a => cond s a = true) s acts t := by
  induction reach with
  | start => exact .start
  | next _ _ move ih =>
    obtain ⟨met, move⟩ := Option.ite_none_right_eq_some.mp move
    exact .next ih met move

end Transition
