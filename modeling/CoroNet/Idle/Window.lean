import CoroNet.Idle.CircularBuffer
import Mathlib.Data.List.DropRight
import Mathlib.Data.List.Induction

namespace CoroNet.CircularBuffer

/-- An iterator; without `buffer` its `buffer_` is null. -/
structure Iterator where
  buffer : Bool
  pos : Nat
deriving DecidableEq

variable {α : Type*}

/-- The constructor; `resize` throws beyond what a vector can hold. -/
def construct (default : α) (capacity : Nat) : Option (CircularBuffer α) :=
  if capacity < 2 ^ 63 then some (make default capacity) else none

def end_ : Iterator := ⟨false, 0⟩

def begin_ (b : CircularBuffer α) : Iterator := if b.size = 0 then end_ else ⟨true, b.head⟩

/-- `operator*`; there is no element behind a null pointer. -/
def deref (b : CircularBuffer α) (it : Iterator) : Option α := if it.buffer then b.buffer[it.pos]? else none

/-- `operator++`. -/
def increment (b : CircularBuffer α) (it : Iterator) : Iterator :=
  if b.next it.pos = b.tail ∨ b.size = 0 then end_ else { it with pos := b.next it.pos }

/-- What a loop from `it` to `end()` visits, if it ends within `n` rounds. -/
def visit (b : CircularBuffer α) : Nat → Iterator → Option (List α)
  | 0, it => if it = end_ then some [] else none
  | n + 1, it =>
    if it = end_ then some []
    else (b.deref it).bind fun x => (b.visit n (b.increment it)).map fun rest => x :: rest

/-- `back()` throws where there is no element. -/
def back (b : CircularBuffer α) : Except String (Option α) :=
  if b.size = 0 then .error "CircularBuffer is empty" else .ok b.buffer[b.prev b.tail]?

/-- The buffer holds these elements, and `head` is where the oldest is. -/
structure Placed (b : CircularBuffer α) (recent : List α) : Prop where
  slots : b.Recent recent
  filling : recent.length < b.capacity → b.head = 0 ∧ b.tail = recent.length
  full : recent.length = b.capacity → b.head = b.tail

variable {b b₀ : CircularBuffer α} {recent items : List α} {default x : α} {capacity j n : Nat}

theorem next_spot (bound : b.capacity < 2 ^ 63) (tail : b.tail < b.capacity) (inside : j < b.capacity) :
    b.next (b.spot j) = if j = 0 then b.tail else b.spot (j - 1) := by
  have slot : b.spot j < b.capacity := by
    unfold spot
    split <;> omega
  rw [next_of_lt bound slot]
  unfold spot
  split_ifs <;> omega

/-- Only the oldest of all slots is the one the tail is at. -/
theorem spot_ne_tail (inside : j + 1 < b.capacity) : b.spot j ≠ b.tail := by
  unfold spot
  split <;> omega

theorem visit_end (b : CircularBuffer α) (n : Nat) : b.visit n end_ = some [] := by
  cases n <;> exact if_pos rfl

/-- One round: from the latest element the loop comes to its end, from any
other one to the next. -/
theorem Recent.visit_spot (recent_b : b.Recent recent) (inside : j < recent.length) (n : Nat) :
    b.visit (n + 1) ⟨true, b.spot j⟩ =
      (b.visit n (if j = 0 then end_ else ⟨true, b.spot (j - 1)⟩)).map fun rest => recent[j] :: rest := by
  have size := recent_b.size
  have within := recent_b.within
  have begun : (⟨true, b.spot j⟩ : Iterator) ≠ end_ := fun same => Bool.noConfusion (congrArg Iterator.buffer same)
  have here : b.deref ⟨true, b.spot j⟩ = some recent[j] := by
    rw [deref, if_pos rfl, recent_b.slot j inside, List.getElem?_eq_getElem inside]
  have next := next_spot recent_b.bound recent_b.tail (show j < b.capacity by omega)
  rw [visit, if_neg begun, here, Option.bind_some, increment, next]
  by_cases latest : j = 0
  · rw [if_pos latest, if_pos latest, if_pos (Or.inl rfl)]
  · have apart : b.spot (j - 1) ≠ b.tail := spot_ne_tail (by omega)
    rw [if_neg latest, if_neg latest, if_neg (by omega)]

/-- The loop goes on to the latest element and ends there. -/
theorem Recent.visit_all (recent_b : b.Recent recent) (inside : j < recent.length) (n : Nat) :
    b.visit (n + j + 1) ⟨true, b.spot j⟩ = some (recent.take (j + 1)).reverse := by
  induction j with
  | zero =>
    rw [recent_b.visit_spot inside, if_pos rfl, visit_end, List.take_succ_eq_append_getElem inside]
    rfl
  | succ j ih =>
    rw [recent_b.visit_spot inside, if_neg (Nat.succ_ne_zero j), Nat.add_sub_cancel]
    rw [← Nat.add_assoc, ih (by omega), Option.map_some, List.take_succ_eq_append_getElem inside,
      List.reverse_append, List.reverse_singleton, List.singleton_append]

theorem Placed.begin_spot (placed : b.Placed recent) (some : 0 < recent.length) :
    b.begin_ = ⟨true, b.spot (recent.length - 1)⟩ := by
  have size := placed.slots.size
  have within := placed.slots.within
  rw [begin_, if_neg (by omega)]
  congr 1
  rcases within.lt_or_eq with filling | full
  · obtain ⟨head, tail⟩ := placed.filling filling
    rw [head, spot, if_pos (by omega)]
    omega
  · have head := placed.full full
    have tail := placed.slots.tail
    rw [head, spot, if_neg (by omega)]
    omega

theorem Placed.visit_begin (placed : b.Placed recent) (enough : recent.length ≤ n) :
    b.visit n b.begin_ = some recent.reverse := by
  rcases Nat.eq_zero_or_pos recent.length with none_held | some
  · have empty := List.eq_nil_of_length_eq_zero none_held
    have size := placed.slots.size
    rw [begin_, if_pos (by omega), visit_end, empty, List.reverse_nil]
  · have visited := placed.slots.visit_all (show recent.length - 1 < recent.length by omega) (n - recent.length)
    have rounds : n - recent.length + (recent.length - 1) + 1 = n := by omega
    have all : recent.length - 1 + 1 = recent.length := by omega
    rw [rounds, all, List.take_length] at visited
    rw [placed.begin_spot some, visited]

theorem pushBack_head : (b.pushBack x).head = if b.size = b.capacity then b.next b.tail else b.head := by
  unfold pushBack
  split <;> rfl

theorem Placed.pushBack (placed : b.Placed recent) (x : α) :
    (b.pushBack x).Placed ((x :: recent).take b.capacity) := by
  have next := next_of_lt placed.slots.bound placed.slots.tail
  have size := placed.slots.size
  have within := placed.slots.within
  refine ⟨placed.slots.pushBack x, ?_, ?_⟩
  all_goals rw [pushBack_capacity, pushBack_tail, pushBack_head, next, List.length_take, List.length_cons]
  · intro filling
    obtain ⟨head, tail⟩ := placed.filling (by omega)
    rw [if_neg (by omega), if_neg (by omega)]
    omega
  · intro full
    rcases within.lt_or_eq with filling | was_full
    · obtain ⟨head, tail⟩ := placed.filling filling
      rw [if_neg (by omega), if_pos (by omega), head]
    · rw [if_pos (by omega)]

theorem construct_placed (positive : 0 < capacity) (built : construct default capacity = some b) :
    b.Placed [] ∧ b.capacity = capacity := by
  obtain ⟨bound, made⟩ := Option.ite_none_right_eq_some.mp built
  cases Option.some.inj made
  exact ⟨⟨make_recent positive bound, fun _ => ⟨rfl, rfl⟩, fun _ => rfl⟩, rfl⟩

theorem pushAll_capacity (b : CircularBuffer α) (items : List α) :
    (items.foldl CircularBuffer.pushBack b).capacity = b.capacity := by
  induction items generalizing b with
  | nil => rfl
  | cons x rest ih => exact (ih (b.pushBack x)).trans pushBack_capacity

theorem take_cons_take (x : α) (n : Nat) (l : List α) : (x :: l.take n).take n = (x :: l).take n := by
  cases n with
  | zero => rfl
  | succ n => simp [List.take_take]

/-- After all pushes the latest elements are the last of the items. -/
theorem Placed.pushAll (placed : b.Placed []) (items : List α) :
    (items.foldl CircularBuffer.pushBack b).Placed (items.reverse.take b.capacity) := by
  induction items using List.reverseRecOn with
  | nil => simpa using placed
  | append_singleton items x ih =>
    have next := ih.pushBack x
    rw [pushAll_capacity, take_cons_take] at next
    simpa using next

/-- One more item takes the first one out of a full window. -/
theorem rtake_concat (positive : 0 < n) (items : List α) (x : α) :
    (items ++ [x]).rtake n = (if n ≤ items.length then (items.rtake n).tail else items.rtake n) ++ [x] := by
  rw [List.rtake, List.rtake, List.length_append, List.length_singleton]
  by_cases full : n ≤ items.length
  · rw [if_pos full, List.tail_drop, List.drop_append_of_le_length (by omega)]
    congr 2
    omega
  · have all : items.length + 1 - n = 0 ∧ items.length - n = 0 := by omega
    rw [if_neg full, all.1, all.2, List.drop_zero, List.drop_zero]

/-- What the members of a buffer show: these elements, the oldest first. -/
structure Shows (b : CircularBuffer α) (shown : List α) : Prop where
  size : b.size = shown.length
  visits : ∀ n, shown.length ≤ n → b.visit n b.begin_ = some shown
  none_back : shown = [] → b.back = .error "CircularBuffer is empty"
  back : ∀ front x, shown = front ++ [x] → b.back = .ok (some x)

theorem Placed.shows (placed : b.Placed recent) : b.Shows recent.reverse := by
  have size := placed.slots.size
  refine ⟨by rwa [List.length_reverse], fun n enough => placed.visit_begin (by rwa [List.length_reverse] at enough),
    ?_, ?_⟩
  · intro empty
    rw [List.reverse_eq_nil_iff.mp empty] at size
    exact if_pos size
  · intro front x split
    have latest : recent[0]? = some x := by
      rw [← List.head?_eq_getElem?, ← List.getLast?_reverse, split, List.getLast?_concat]
    have slot := placed.slots.slot 0 (List.getElem?_eq_some_iff.mp latest).1
    have some_held : b.size ≠ 0 := by
      have length := congrArg List.length split
      rw [List.length_reverse, List.length_append, List.length_singleton] at length
      omega
    rw [CircularBuffer.back, if_neg some_held, placed.slots.prev_tail, slot, latest]

theorem Placed.pushAll_shows (placed : b.Placed []) (items : List α) :
    (items.foldl CircularBuffer.pushBack b).Shows (items.rtake b.capacity) := by
  rw [List.rtake_eq_reverse_take_reverse]
  exact (placed.pushAll items).shows

/-- After any pushes the buffer shows the last of the items, as many as it has
room for, and one more push on a full buffer takes the oldest of them away. -/
theorem sliding_window (positive : 0 < capacity) (built : construct default capacity = some b₀) (items : List α) :
    (items.foldl CircularBuffer.pushBack b₀).Shows (items.rtake capacity) ∧
      (items.foldl CircularBuffer.pushBack b₀).size = min items.length capacity ∧
      ((∃ e, (items.foldl CircularBuffer.pushBack b₀).back = .error e) ↔ items = []) ∧
      (∀ front x, items = front ++ [x] → (items.foldl CircularBuffer.pushBack b₀).back = .ok (some x)) ∧
      ∀ x, ((items.foldl CircularBuffer.pushBack b₀).pushBack x).Shows
        ((if (items.foldl CircularBuffer.pushBack b₀).size = capacity then (items.rtake capacity).tail
          else items.rtake capacity) ++ [x]) := by
  obtain ⟨placed, rfl⟩ := construct_placed positive built
  have shows := placed.pushAll_shows items
  have size : (items.foldl CircularBuffer.pushBack b₀).size = min items.length b₀.capacity := by
    rw [shows.size, List.rtake, List.length_drop]
    omega
  have back : ∀ front x, items = front ++ [x] → (items.foldl CircularBuffer.pushBack b₀).back = .ok (some x) := by
    intro front x split
    have last := rtake_concat positive front x
    rw [← split] at last
    exact shows.back _ x last
  refine ⟨shows, size, ⟨?_, ?_⟩, back, fun x => ?_⟩
  · rintro ⟨e, thrown⟩
    rcases List.eq_nil_or_concat items with empty | ⟨front, x, split⟩
    · exact empty
    · rw [back front x (split.trans List.concat_eq_append)] at thrown
      cases thrown
  · rintro rfl
    exact ⟨_, shows.none_back (List.rtake_nil _)⟩
  · have full : (items.foldl CircularBuffer.pushBack b₀).size = b₀.capacity ↔ b₀.capacity ≤ items.length := by omega
    have more := placed.pushAll_shows (items ++ [x])
    rw [rtake_concat positive, List.foldl_append, List.foldl_cons, List.foldl_nil] at more
    simpa only [full] using more

def pushThree (capacity : Nat) : CircularBuffer Nat := [1, 2, 3].foldl CircularBuffer.pushBack (make 0 capacity)

/-- With one slot the head and the tail never move apart; with three they meet
when the buffer is full. -/
theorem three_items_window :
    (pushThree 1).visit 1 (pushThree 1).begin_ = some [3] ∧
      (pushThree 3).visit 3 (pushThree 3).begin_ = some [1, 2, 3] := by
  have one := (sliding_window (by decide) (if_pos (by decide) : construct 0 1 = some (make 0 1)) [1, 2, 3]).1
  have three := (sliding_window (by decide) (if_pos (by decide) : construct 0 3 = some (make 0 3)) [1, 2, 3]).1
  exact ⟨one.visits 1 (by decide), three.visits 3 (by decide)⟩

end CoroNet.CircularBuffer
