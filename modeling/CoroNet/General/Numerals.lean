import Mathlib.Data.Nat.Digits.Lemmas

/-- The digits of a positional notation, as they are written and read. -/
structure Numerals (α : Type*) (base : Nat) where
  glyph : Nat → α
  value : α → Option Nat
  value_glyph : ∀ d < base, value (glyph d) = some d
  glyph_value : ∀ c d, value c = some d → d < base ∧ glyph d = c

namespace Numerals

variable {α : Type*} {base : Nat}

/-- The highest digit comes first, and zero has one digit. -/
def write (A : Numerals α base) (n : Nat) : List α :=
  if n = 0 then [A.glyph 0] else ((base.digits n).map A.glyph).reverse

/-- Goes on reading where `n` has been read. -/
def readFrom (A : Numerals α base) (n : Nat) : List α → Option Nat
  | [] => some n
  | c :: rest => (A.value c).bind fun d => A.readFrom (n * base + d) rest

def read (A : Numerals α base) (text : List α) : Option Nat := if text = [] then none else A.readFrom 0 text

/-- Digits only, at least one, and no zero in front of others. -/
structure Canonical (A : Numerals α base) (text : List α) : Prop where
  nonempty : text ≠ []
  digits : ∀ c ∈ text, (A.value c).isSome = true
  leading : text.head? = A.glyph 0 → text.length = 1

/-- A loop that takes off the lowest digit until nothing is left, for at most
`fuel` digits. -/
def loop (A : Numerals α base) : Nat → Nat → List α
  | 0, _ => []
  | fuel + 1, n => A.glyph (n % base) :: if n / base = 0 then [] else A.loop fuel (n / base)

variable {A : Numerals α base} {text more : List α} {n m fuel : Nat} {c : α}

theorem readFrom_append (A : Numerals α base) (n : Nat) (text more : List α) :
    A.readFrom n (text ++ more) = (A.readFrom n text).bind fun m => A.readFrom m more := by
  induction text generalizing n with
  | nil => rfl
  | cons c rest ih =>
    simp only [List.cons_append, readFrom]
    cases A.value c with
    | none => rfl
    | some d => exact ih (n * base + d)

theorem readFrom_digits (A : Numerals α base) (n : Nat) {digits : List Nat} (small : ∀ d ∈ digits, d < base) :
    A.readFrom n (digits.map A.glyph).reverse = some (n * base ^ digits.length + Nat.ofDigits base digits) := by
  induction digits with
  | nil => simp [readFrom]
  | cons d rest ih =>
    have first := A.value_glyph d (small d List.mem_cons_self)
    rw [List.map_cons, List.reverse_cons, readFrom_append, ih fun d member => small d (List.mem_cons_of_mem _ member)]
    simp only [Option.bind_some, readFrom, first, Nat.ofDigits_cons, List.length_cons, pow_succ]
    ring_nf

/-- A text of digits spells a list of them, the lowest first. -/
theorem exists_digits (A : Numerals α base) (digits : ∀ c ∈ text, (A.value c).isSome = true) :
    ∃ ds : List Nat, (∀ d ∈ ds, d < base) ∧ text = (ds.map A.glyph).reverse := by
  induction text with
  | nil => exact ⟨[], nofun, rfl⟩
  | cons c rest ih =>
    obtain ⟨ds, small, eq⟩ := ih fun c member => digits c (List.mem_cons_of_mem _ member)
    obtain ⟨d, value⟩ := Option.isSome_iff_exists.mp (digits c List.mem_cons_self)
    obtain ⟨bound, glyph⟩ := A.glyph_value c d value
    refine ⟨ds ++ [d], ?_, ?_⟩
    · intro x member
      rcases List.mem_append.mp member with before | last
      · exact small x before
      · rwa [List.mem_singleton.mp last]
    · simp [eq, glyph]

theorem glyph_injective (A : Numerals α base) {d e : Nat} (small : d < base) (small_e : e < base)
    (same : A.glyph d = A.glyph e) : d = e := by
  have value := A.value_glyph d small
  rw [same, A.value_glyph e small_e] at value
  exact (Option.some.inj value).symm

theorem write_ne_nil (A : Numerals α base) (n : Nat) : A.write n ≠ [] := by
  unfold write
  split
  · exact List.cons_ne_nil _ _
  next positive => simpa using Nat.digits_ne_nil_iff_ne_zero.mpr positive

theorem write_of_lt (A : Numerals α base) (small : n < base) : A.write n = [A.glyph n] := by
  unfold write
  split
  next zero => rw [zero]
  next positive => rw [Nat.digits_of_lt base n positive small, List.map_singleton, List.reverse_singleton]

theorem write_div (A : Numerals α base) (wide : 1 < base) (large : base ≤ n) :
    A.write n = A.write (n / base) ++ [A.glyph (n % base)] := by
  have more : n / base ≠ 0 := (Nat.div_pos large (by omega)).ne'
  rw [write, write, if_neg (by omega), if_neg more, Nat.digits_eq_cons_digits_div wide (by omega)]
  simp

theorem read_write (A : Numerals α base) (wide : 1 < base) (n : Nat) : A.read (A.write n) = some n := by
  rw [read, if_neg (A.write_ne_nil n), write]
  split
  next zero => simp [readFrom, A.value_glyph 0 (by omega), zero]
  next => simp [A.readFrom_digits 0 fun d member => Nat.digits_lt_base wide member, Nat.ofDigits_digits]

/-- The digits of a positive number do not begin with a zero. -/
theorem head_digits_ne (A : Numerals α base) (wide : 1 < base) (positive : n ≠ 0) :
    ((base.digits n).map A.glyph).reverse.head? ≠ A.glyph 0 := by
  intro leading
  have ne : base.digits n ≠ [] := Nat.digits_ne_nil_iff_ne_zero.mpr positive
  rw [List.head?_reverse, List.getLast?_map, List.getLast?_eq_getLast_of_ne_nil ne, Option.map_some] at leading
  have small := Nat.digits_lt_base wide (List.getLast_mem ne)
  exact Nat.getLast_digit_ne_zero base positive (A.glyph_injective small (by omega) (Option.some.inj leading))

theorem write_canonical (A : Numerals α base) (wide : 1 < base) (n : Nat) : A.Canonical (A.write n) := by
  refine ⟨A.write_ne_nil n, ?_, ?_⟩
  · have spelled : ∀ d < base, (A.value (A.glyph d)).isSome = true := fun d small => by rw [A.value_glyph d small]; rfl
    intro c member
    unfold write at member
    split at member
    · rw [List.mem_singleton.mp member]
      exact spelled 0 (by omega)
    · obtain ⟨d, inside, rfl⟩ := List.mem_map.mp (List.mem_reverse.mp member)
      exact spelled d (Nat.digits_lt_base wide inside)
  · intro leading
    unfold write at leading ⊢
    split at leading
    next zero => rw [if_pos zero, List.length_singleton]
    next positive => exact absurd leading (A.head_digits_ne wide positive)

/-- There is no other way to write a number. -/
theorem Canonical.eq_write (canonical : A.Canonical text) (wide : 1 < base) (reads : A.read text = some n) :
    text = A.write n := by
  obtain ⟨ds, small, rfl⟩ := A.exists_digits canonical.digits
  rw [read, if_neg canonical.nonempty, A.readFrom_digits 0 small, Nat.zero_mul, Nat.zero_add] at reads
  cases reads
  have ne : ds ≠ [] := fun empty => canonical.nonempty (by rw [empty]; rfl)
  by_cases last : ds.getLast ne = 0
  · have leading : (ds.map A.glyph).reverse.head? = A.glyph 0 := by
      rw [List.head?_reverse, List.getLast?_map, List.getLast?_eq_getLast_of_ne_nil ne, last, Option.map_some]
    have single := canonical.leading leading
    rw [List.length_reverse, List.length_map] at single
    obtain ⟨d, rfl⟩ := List.length_eq_one_iff.mp single
    rw [List.getLast_singleton] at last
    rw [last, Nat.ofDigits_singleton]
    rfl
  · have digits := Nat.digits_ofDigits base wide ds small fun _ => last
    have positive : Nat.ofDigits base ds ≠ 0 := by
      rw [← Nat.digits_ne_nil_iff_ne_zero (b := base), digits]
      exact ne
    rw [write, if_neg positive, digits]

theorem write_length (A : Numerals α base) (wide : 1 < base) {k : Nat} (small : n < base ^ (k + 1)) :
    (A.write n).length ≤ k + 1 := by
  unfold write
  split
  · exact Nat.le_add_left 1 k
  · rw [List.length_reverse, List.length_map]
    exact (Nat.digits_length_le_iff wide n).mpr small

/-- The loop writes the digits in reverse, if there are enough for all of them. -/
theorem loop_reverse (A : Numerals α base) (wide : 1 < base) (enough : n < base ^ (fuel + 1)) :
    (A.loop (fuel + 1) n).reverse = A.write n := by
  induction fuel generalizing n with
  | zero =>
    have small : n < base := by simpa using enough
    simp [loop, Nat.mod_eq_of_lt small, A.write_of_lt small]
  | succ fuel ih =>
    rw [loop]
    rcases Nat.lt_or_ge n base with small | large
    · rw [if_pos (Nat.div_eq_of_lt small), Nat.mod_eq_of_lt small, A.write_of_lt small, List.reverse_singleton]
    · have rest : n / base < base ^ (fuel + 1) := by
        rw [pow_succ] at enough
        exact Nat.div_lt_of_lt_mul (by rwa [Nat.mul_comm] at enough)
      rw [if_neg (Nat.div_pos large (by omega)).ne', List.reverse_cons, ih rest, A.write_div wide large]

end Numerals
