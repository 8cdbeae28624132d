import Mathlib.Algebra.Ring.Int.Defs
import Mathlib.Algebra.Ring.Nat
import Mathlib.Data.Int.Basic

namespace CoroNet

/-- What a 64-bit signed integer holds after a result that may not fit. -/
def wrap64 (x : Int) : Int := x.bmod (2 ^ 64)

def fits64 (x : Int) : Bool := decide (-2 ^ 63 ≤ x ∧ x < 2 ^ 63)

theorem wrap64_of_fits {x : Int} (fits : fits64 x = true) : wrap64 x = x := by
  have bounds := of_decide_eq_true fits
  unfold wrap64
  apply Int.bmod_eq_of_le <;> omega

/-- A sum of two values, neither of them negative, that does not fit becomes negative. -/
theorem wrap64_of_large {x : Int} (large : 2 ^ 63 ≤ x) (bound : x < 2 ^ 64) : wrap64 x = x - 2 ^ 64 := by
  have same : wrap64 (x - 2 ^ 64) = wrap64 x := Int.sub_bmod_right x (2 ^ 64)
  rw [← same]
  exact wrap64_of_fits (decide_eq_true ⟨by omega, by omega⟩)

theorem wrap64_sub (x y : Int) : wrap64 (wrap64 x - y) = wrap64 (x - y) :=
  Int.bmod_sub_bmod

end CoroNet
