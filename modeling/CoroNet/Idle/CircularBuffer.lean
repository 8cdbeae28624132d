import CoroNet.SizeT
import Mathlib.Data.List.Basic
import Mathlib.Order.Lattice

namespace CoroNet

/-- The slots of a vector used in a circle; `tail` is the slot the next
element goes to. -/
structure CircularBuffer (α : Type*) where
  buffer : List α
  capacity : Nat
  size : Nat
  head : Nat
  tail : Nat

namespace CircularBuffer

variable {α : Type*}

/-- The vector is resized to the capacity with default elements. -/
def make (default : α) (capacity : Nat) : CircularBuffer α where
  buffer := List.replicate capacity default
  capacity := capacity
  size := 0
  head := 0
  tail := 0

def next (b : CircularBuffer α) (index : Nat) : Nat := SizeT.add index 1 % b.capacity

def prev (b : CircularBuffer α) (index : Nat) : Nat := SizeT.add (SizeT.sub index 1) b.capacity % b.capacity

/-- Overwrites the oldest element when all slots are in use. -/
def pushBack (b : CircularBuffer α) (item : α) : CircularBuffer α :=
  if b.size = b.capacity then
    { b with buffer := b.buffer.set b.tail item, tail := b.next b.tail, head := b.next b.tail }
  else
    { b with buffer := b.buffer.set b.tail item, tail := b.next b.tail, size := SizeT.add b.size 1 }

/-- Changes the element `back()` refers to; `back()` throws if there is none. -/
def modifyBack (b : CircularBuffer α) (f : α → α) : Option (CircularBuffer α) :=
  if b.size = 0 then none else some { b with buffer := b.buffer.modify (b.prev b.tail) f }

/-- The slot of the element pushed before the last `j` ones. -/
def spot (b : CircularBuffer α) (j : Nat) : Nat :=
  if j < b.tail then b.tail - 1 - j else b.tail + b.capacity - 1 - j

/-- The buffer holds these elements, the latest first. -/
structure Recent (b : CircularBuffer α) (recent : List α) : Prop where
  vector : b.buffer.length = b.capacity
  bound : b.capacity < 2 ^ 63
  tail : b.tail < b.capacity
  size : b.size = recent.length
  within : recent.length ≤ b.capacity
  slot : ∀ j < recent.length, b.buffer[b.spot j]? = recent[j]?

variable {b : CircularBuffer α} {recent : List α} {x : α}

theorem next_of_lt {index : Nat} (bound : b.capacity < 2 ^ 63) (inside : index < b.capacity) :
    b.next index = if index + 1 = b.capacity then 0 else index + 1 := by
  rw [next, SizeT.add_of_lt (by omega)]
  by_cases last : index + 1 = b.capacity
  · rw [if_pos last, last, Nat.mod_self]
  · rw [if_neg last, Nat.mod_eq_of_lt (by omega)]

theorem Recent.prev_tail (recent_b : b.Recent recent) : b.prev b.tail = b.spot 0 := by
  have bound := recent_b.bound
  have tail := recent_b.tail
  rw [prev, spot]
  by_cases first : b.tail = 0
  · -- the subtraction wraps, and adding the capacity wraps back
    have wrapped : SizeT.add (SizeT.sub b.tail 1) b.capacity = b.capacity - 1 := by
      rw [first, SizeT.add, SizeT.sub]
      omega
    rw [wrapped, if_neg (by omega), Nat.mod_eq_of_lt (by omega)]
    omega
  · rw [SizeT.sub_of_le (by omega) (by omega), SizeT.add_of_lt (by omega), if_pos (by omega), Nat.add_mod_right,
      Nat.mod_eq_of_lt (by omega)]
    rfl

theorem pushBack_capacity : (b.pushBack x).capacity = b.capacity := by
  unfold pushBack
  split <;> rfl

theorem pushBack_tail : (b.pushBack x).tail = b.next b.tail := by
  unfold pushBack
  split <;> rfl

theorem pushBack_buffer : (b.pushBack x).buffer = b.buffer.set b.tail x := by
  unfold pushBack
  split <;> rfl

/-- One push moves every element one place back; the latest sits where the
tail was. -/
theorem pushBack_spot {j : Nat} (bound : b.capacity < 2 ^ 63) (tail : b.tail < b.capacity) (inside : j < b.capacity) :
    (b.pushBack x).spot j = if j = 0 then b.tail else b.spot (j - 1) := by
  rw [spot, spot, pushBack_tail, pushBack_capacity, next_of_lt bound tail]
  split_ifs <;> omega

theorem Recent.pushBack (recent_b : b.Recent recent) (x : α) :
    (b.pushBack x).Recent ((x :: recent).take b.capacity) := by
  have bound := recent_b.bound
  have tail := recent_b.tail
  have size := recent_b.size
  have within := recent_b.within
  refine ⟨?_, ?_, ?_, ?_, ?_, ?_⟩
  · rw [pushBack_buffer, pushBack_capacity, List.length_set, recent_b.vector]
  · rwa [pushBack_capacity]
  · rw [pushBack_tail, pushBack_capacity, next_of_lt bound tail]
    split_ifs <;> omega
  · simp only [List.length_take, List.length_cons]
    unfold CircularBuffer.pushBack
    split
    · simp only
      omega
    · rw [SizeT.add_of_lt (by omega)]
      simp only
      omega
  · rw [pushBack_capacity, List.length_take]
    omega
  · intro j inside
    rw [List.length_take, List.length_cons] at inside
    rw [pushBack_buffer, pushBack_spot bound tail (by omega), List.getElem?_take_of_lt (by omega)]
    cases j with
    | zero => simp [recent_b.vector, tail]
    | succ j =>
      have apart : b.tail ≠ b.spot j := by
        unfold spot
        split <;> omega
      rw [if_neg (by omega), Nat.add_sub_cancel, List.getElem?_set_ne apart, List.getElem?_cons_succ]
      exact recent_b.slot j (by omega)

theorem Recent.modifyBack (recent_b : b.Recent (x :: recent)) (f : α → α) :
    ∃ b', b.modifyBack f = some b' ∧ b'.capacity = b.capacity ∧ b'.Recent (f x :: recent) := by
  have tail := recent_b.tail
  have within := recent_b.within
  have size := recent_b.size
  rw [List.length_cons] at within size
  rw [CircularBuffer.modifyBack, if_neg (by omega), recent_b.prev_tail]
  refine ⟨_, rfl, rfl, ?_, recent_b.bound, tail, size, within, ?_⟩
  · rw [List.length_modify, recent_b.vector]
  · intro j inside
    have slot := recent_b.slot j inside
    have same : spot { b with buffer := b.buffer.modify (b.spot 0) f } j = b.spot j := rfl
    rw [same, List.getElem?_modify, slot]
    cases j with
    | zero => simp
    | succ j =>
      rw [List.length_cons] at inside
      have apart : b.spot 0 ≠ b.spot (j + 1) := by
        unfold spot
        split_ifs <;> omega
      simp [apart]

/-- With all slots in use the elements of the vector are those held. -/
theorem Recent.mem_iff (recent_b : b.Recent recent) (full : recent.length = b.capacity) :
    x ∈ b.buffer ↔ x ∈ recent := by
  have tail := recent_b.tail
  constructor
  · intro member
    obtain ⟨i, inside, here⟩ := List.getElem_of_mem member
    rw [recent_b.vector] at inside
    obtain ⟨j, back, place⟩ : ∃ j < recent.length, b.spot j = i := by
      by_cases before : i < b.tail
      · refine ⟨b.tail - 1 - i, by omega, ?_⟩
        unfold spot
        split <;> omega
      · refine ⟨b.tail + b.capacity - 1 - i, by omega, ?_⟩
        unfold spot
        split <;> omega
    have slot := recent_b.slot j back
    rw [place] at slot
    exact List.mem_of_getElem? (slot.symm.trans (List.getElem?_eq_some_iff.mpr ⟨_, here⟩))
  · intro member
    obtain ⟨j, inside, here⟩ := List.getElem_of_mem member
    exact List.mem_of_getElem? ((recent_b.slot j inside).trans (List.getElem?_eq_some_iff.mpr ⟨inside, here⟩))

/-- With all slots in use the next push overwrites the oldest element. -/
theorem Recent.oldest (recent_b : b.Recent recent) (full : recent.length = b.capacity) :
    b.buffer[b.tail]? = recent[b.capacity - 1]? := by
  have tail := recent_b.tail
  have place : b.spot (b.capacity - 1) = b.tail := by
    unfold spot
    split <;> omega
  rw [← place]
  exact recent_b.slot _ (by omega)

theorem make_recent {capacity : Nat} (positive : 0 < capacity) (bound : capacity < 2 ^ 63) :
    (make x capacity).Recent [] :=
  ⟨List.length_replicate .., bound, positive, rfl, Nat.zero_le _, nofun⟩

end CircularBuffer

end CoroNet
