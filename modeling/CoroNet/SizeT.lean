import Mathlib.Algebra.Ring.Nat

namespace CoroNet.SizeT

/-- Sums, differences and products of `size_t` are taken modulo 2^64. -/
def add (a b : Nat) : Nat := (a + b) % 2 ^ 64

def sub (a b : Nat) : Nat := (a + (2 ^ 64 - b % 2 ^ 64)) % 2 ^ 64

def mul (a b : Nat) : Nat := (a * b) % 2 ^ 64

theorem add_of_lt {a b : Nat} (fits : a + b < 2 ^ 64) : add a b = a + b :=
  Nat.mod_eq_of_lt fits

theorem add_lt (a b : Nat) : add a b < 2 ^ 64 :=
  Nat.mod_lt _ (by decide)

theorem sub_of_le {a b : Nat} (le : b ≤ a) (fits : a < 2 ^ 64) : sub a b = a - b := by
  unfold sub
  omega

theorem mul_of_lt {a b : Nat} (fits : a * b < 2 ^ 64) : mul a b = a * b :=
  Nat.mod_eq_of_lt fits

end CoroNet.SizeT
