import Mathlib.Data.List.Induction
import Mathlib.Data.List.Pairwise
import Mathlib.Tactic.Ring

namespace Spacing

/-- What holds between every element and those before it. -/
theorem pairwise_of_splits {α : Type*} {R : α → α → Prop} {log : List α}
    (splits : ∀ before g after, log = before ++ g :: after → ∀ f ∈ before, R f g) : log.Pairwise R := by
  induction log using List.reverseRecOn with
  | nil => exact .nil
  | append_singleton log last ih =>
    have earlier : log.Pairwise R := by
      refine ih fun before g after same f member => splits before g (after ++ [last]) ?_ f member
      rw [same, List.append_assoc, List.cons_append]
    refine List.pairwise_append.mpr ⟨earlier, List.pairwise_singleton R last, fun f member g inLast => ?_⟩
    rw [List.mem_singleton.mp inLast]
    exact splits log last [] rfl f member

/-- Times of which each is at least `gap` after the ones before it. -/
theorem spaced_length {times : List Int} {gap first last : Int} (spaced : times.Pairwise fun s t => s + gap ≤ t)
    (early : ∀ t ∈ times, first ≤ t) (late : ∀ t ∈ times, t ≤ last) (some_time : times ≠ []) :
    first + (times.length - 1) * gap ≤ last := by
  induction times generalizing first with
  | nil => exact absurd rfl some_time
  | cons t times ih =>
    have begins := early t List.mem_cons_self
    cases times with
    | nil =>
      have ends := late t List.mem_cons_self
      simp only [List.length_singleton]
      omega
    | cons u times =>
      obtain ⟨apart, spaced⟩ := List.pairwise_cons.mp spaced
      have rest := ih spaced apart (fun v member => late v (List.mem_cons_of_mem _ member)) (List.cons_ne_nil _ _)
      calc first + (((t :: u :: times).length : Int) - 1) * gap
          ≤ t + (((t :: u :: times).length : Int) - 1) * gap := Int.add_le_add_right begins _
        _ = t + gap + (((u :: times).length : Int) - 1) * gap := by
          rw [List.length_cons, Nat.cast_succ]
          ring
        _ ≤ last := rest

end Spacing
