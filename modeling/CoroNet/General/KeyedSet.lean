import Mathlib.Order.Defs.LinearOrder
import Mathlib.Order.Lattice
import Mathlib.Data.List.Pairwise
import Mathlib.Data.List.TakeWhile

/-- A set ordered by a key, as the list of its elements in increasing key
order. Two elements with one key never coexist. -/
structure KeyedSet {α κ : Type*} [LinearOrder κ] (key : α → κ) where
  elems : List α
  sorted : elems.Pairwise fun a b => key a < key b

namespace KeyedSet

variable {α κ : Type*} [LinearOrder κ] {key : α → κ}

/-- Puts an element at its place; an element that already has the key stays
and the new one is dropped. -/
def insertSorted (key : α → κ) (x : α) : List α → List α
  | [] => [x]
  | y :: ys =>
    if key x < key y then x :: y :: ys
    else if key y < key x then y :: insertSorted key x ys
    else y :: ys

theorem mem_insertSorted_or {x z : α} {l : List α} (member : z ∈ insertSorted key x l) : z = x ∨ z ∈ l := by
  induction l with
  | nil => simpa [insertSorted] using member
  | cons y ys ih =>
    unfold insertSorted at member
    split_ifs at member
    · simpa using member
    · rcases List.mem_cons.mp member with rfl | member
      · exact Or.inr (List.mem_cons_self ..)
      · exact (ih member).imp_right (List.mem_cons_of_mem _)
    · exact Or.inr member

theorem insertSorted_sorted (x : α) {l : List α} (sorted : l.Pairwise fun a b => key a < key b) :
    (insertSorted key x l).Pairwise fun a b => key a < key b := by
  induction l with
  | nil => simp [insertSorted]
  | cons y ys ih =>
    have tail := List.pairwise_cons.mp sorted
    unfold insertSorted
    split_ifs with below above
    · refine List.pairwise_cons.mpr ⟨?_, sorted⟩
      intro z member
      rcases List.mem_cons.mp member with rfl | member
      · exact below
      · exact below.trans (tail.1 z member)
    · refine List.pairwise_cons.mpr ⟨?_, ih tail.2⟩
      intro z member
      rcases mem_insertSorted_or member with rfl | member
      · exact above
      · exact tail.1 z member
    · exact sorted

theorem mem_insertSorted {x z : α} {l : List α} (fresh : ∀ y ∈ l, key y ≠ key x) :
    z ∈ insertSorted key x l ↔ z = x ∨ z ∈ l := by
  refine ⟨mem_insertSorted_or, ?_⟩
  induction l with
  | nil => simp [insertSorted]
  | cons y ys ih =>
    have rest := ih fun w member => fresh w (List.mem_cons_of_mem _ member)
    intro member
    unfold insertSorted
    split_ifs with below above
    · simpa using member
    · rcases member with same | member
      · exact List.mem_cons_of_mem _ (rest (Or.inl same))
      · rcases List.mem_cons.mp member with rfl | member
        · exact List.mem_cons_self ..
        · exact List.mem_cons_of_mem _ (rest (Or.inr member))
    · exact absurd (le_antisymm (not_lt.mp below) (not_lt.mp above)) (fresh y (List.mem_cons_self ..))

instance : Membership α (KeyedSet key) := ⟨fun s a => a ∈ s.elems⟩

theorem mem_def {s : KeyedSet key} {a : α} : a ∈ s ↔ a ∈ s.elems := Iff.rfl

def empty : KeyedSet key := ⟨[], .nil⟩

def insert (s : KeyedSet key) (x : α) : KeyedSet key :=
  ⟨insertSorted key x s.elems, insertSorted_sorted x s.sorted⟩

/-- Removes the element that has the key, if there is one. -/
def erase (s : KeyedSet key) (k : κ) : KeyedSet key :=
  ⟨s.elems.filter fun a => key a ≠ k, s.sorted.filter _⟩

def first? (s : KeyedSet key) : Option α := s.elems.head?

/-- Takes the first element as long as it satisfies the test; the elements
taken, in order, and what is left. -/
def popWhile (s : KeyedSet key) (p : α → Bool) : List α × KeyedSet key :=
  (s.elems.takeWhile p, ⟨s.elems.dropWhile p, s.sorted.sublist (List.dropWhile_sublist p)⟩)

@[simp] theorem notMem_empty (a : α) : a ∉ (empty : KeyedSet key) := List.not_mem_nil

theorem mem_insert {s : KeyedSet key} {x a : α} (fresh : ∀ y ∈ s, key y ≠ key x) :
    a ∈ s.insert x ↔ a = x ∨ a ∈ s :=
  mem_insertSorted fresh

@[simp] theorem mem_erase {s : KeyedSet key} {k : κ} {a : α} : a ∈ s.erase k ↔ a ∈ s ∧ key a ≠ k := by
  simp [erase, mem_def]

theorem first?_mem {s : KeyedSet key} {a : α} (h : s.first? = some a) : a ∈ s :=
  List.mem_of_head? h

theorem first?_eq_none {s : KeyedSet key} : s.first? = none ↔ ∀ a, a ∉ s := by
  simp [first?, mem_def, List.eq_nil_iff_forall_not_mem]

theorem first?_le {s : KeyedSet key} {a b : α} (h : s.first? = some a) (member : b ∈ s) : key a ≤ key b := by
  obtain ⟨elems, sorted⟩ := s
  cases elems with
  | nil => simp [first?] at h
  | cons c rest =>
    cases Option.some.inj h
    rcases List.mem_cons.mp member with rfl | member
    · exact le_rfl
    · exact ((List.pairwise_cons.mp sorted).1 b member).le

theorem first?_isSome {s : KeyedSet key} {a : α} (member : a ∈ s) : ∃ b, s.first? = some b := by
  cases h : s.first? with
  | none => exact absurd member (first?_eq_none.mp h a)
  | some b => exact ⟨b, rfl⟩

theorem mem_popWhile {s : KeyedSet key} {p : α → Bool} {a : α} :
    a ∈ s ↔ a ∈ (s.popWhile p).1 ∨ a ∈ (s.popWhile p).2 := by
  simp only [popWhile, mem_def]
  rw [← List.mem_append, List.takeWhile_append_dropWhile]

/-- The elements taken come before those left. -/
theorem popWhile_lt {s : KeyedSet key} {p : α → Bool} {a b : α}
    (taken : a ∈ (s.popWhile p).1) (left : b ∈ (s.popWhile p).2) : key a < key b := by
  have sorted := s.sorted
  rw [← List.takeWhile_append_dropWhile (p := p) (l := s.elems)] at sorted
  exact (List.pairwise_append.mp sorted).2.2 a taken b left

theorem popWhile_true {s : KeyedSet key} {p : α → Bool} {a : α} (taken : a ∈ (s.popWhile p).1) : p a = true :=
  List.mem_takeWhile_imp taken

/-- Where the test is passed by everything below what passes it, the elements
left are those that fail. -/
theorem popWhile_false {s : KeyedSet key} {p : α → Bool} {a : α} (left : a ∈ (s.popWhile p).2)
    (closed : ∀ a b, key a ≤ key b → p b = true → p a = true) : p a = false := by
  obtain ⟨elems, sorted⟩ := s
  simp only [popWhile, mem_def] at left
  cases rest : elems.dropWhile p with
  | nil =>
    rw [rest] at left
    exact absurd left List.not_mem_nil
  | cons b tail =>
    have failed : p b = false := by
      have head := List.head?_dropWhile_not p elems
      simpa [rest] using head
    have below := sorted.sublist (List.dropWhile_sublist p)
    rw [rest] at left below
    rw [Bool.eq_false_iff] at failed ⊢
    rcases List.mem_cons.mp left with rfl | later
    · exact failed
    · exact fun passed => failed (closed b a ((List.pairwise_cons.mp below).1 a later).le passed)

theorem popWhile_sorted {s : KeyedSet key} {p : α → Bool} :
    (s.popWhile p).1.Pairwise fun a b => key a < key b :=
  s.sorted.sublist (List.takeWhile_sublist p)

end KeyedSet
