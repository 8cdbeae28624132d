import CoroNet.Log.Record

namespace CoroNet

/-- The text of a value in an unbounded buffer. -/
def Value.text : Value → List UInt8
  | .bool v => ascii (if v then "1" else "0")
  | .integer v => convert v
  | .double v => v.text
  | .char v => [v]
  | .cString (some str) => strlen str
  | .cString none => ascii "(null)"
  | .string data => data
  | .pointer p => ascii "0x" ++ convertHex p

/-- The values that stand behind the test against `kMaxNumericSize`. -/
def Value.numeric : Value → Bool
  | .integer _ | .double _ | .pointer _ => true
  | _ => false

namespace LogStream

def unbounded (values : List Value) : List UInt8 := values.flatMap Value.text

/-- The values without the numbers that come when fewer than 49 bytes are
left, where `length` bytes have been streamed before. -/
def kept (length : Nat) : List Value → List Value
  | [] => []
  | v :: rest =>
    if v.numeric = true ∧ 3952 ≤ length then kept length rest else v :: kept (length + v.text.length) rest

variable {s : LogStream} {full : List UInt8} {v : Value} {values : List Value}

theorem put_numeric (numeric : v.numeric = true) : s.put v = s.appendNumeric v.text := by
  cases v with
  | integer | double | pointer => rfl
  | _ => cases numeric

theorem put_other (other : v.numeric = false) : s.put v = s.append v.text := by
  cases v with
  | integer | double | pointer => cases other
  | cString str => cases str <;> rfl
  | _ => rfl

theorem put_left_out (held : s.buffer.data = full.take 4000) (numeric : v.numeric = true)
    (late : 3952 ≤ full.length) : s.put v = s := by
  rw [put_numeric numeric, appendNumeric]
  apply if_neg
  rw [FixedBuffer.length, held, List.length_take, kMaxNumericSize]
  omega

theorem put_kept (held : s.buffer.data = full.take 4000) (kept : ¬ (v.numeric = true ∧ 3952 ≤ full.length)) :
    (s.put v).buffer.data = (full ++ v.text).take 4000 := by
  have appended : s.put v = s.append v.text := by
    cases numeric : v.numeric with
    | false => exact put_other numeric
    | true =>
      have early : ¬ 3952 ≤ full.length := fun late => kept ⟨numeric, late⟩
      rw [put_numeric numeric, appendNumeric]
      apply if_pos
      rw [FixedBuffer.length, held, List.length_take, kMaxNumericSize]
      omega
  rw [appended]
  exact FixedBuffer.append_take held

/-- Along the values the buffer holds the text of those kept so far, as far as it fits. -/
theorem putAll_data (held : s.buffer.data = full.take 4000) :
    (s.putAll values).buffer.data = (full ++ unbounded (kept full.length values)).take 4000 := by
  induction values generalizing s full with
  | nil =>
    rw [kept, unbounded, List.flatMap_nil, List.append_nil]
    exact held
  | cons v rest ih =>
    have step : s.putAll (v :: rest) = (s.put v).putAll rest := rfl
    rw [step, kept]
    by_cases left_out : v.numeric = true ∧ 3952 ≤ full.length
    · rw [if_pos left_out, put_left_out held left_out.1 left_out.2]
      exact ih held
    · have after := ih (put_kept held left_out)
      rw [List.length_append] at after
      rw [if_neg left_out, after]
      simp only [unbounded, List.flatMap_cons, List.append_assoc]

theorem kept_sublist (length : Nat) (values : List Value) : (kept length values).Sublist values := by
  induction values generalizing length with
  | nil => exact List.Sublist.slnil
  | cons v rest ih =>
    rw [kept]
    split
    · exact (ih length).cons v
    · exact (ih _).cons_cons v

/-- Only numbers are left out. -/
theorem kept_others (length : Nat) (values : List Value) :
    (kept length values).filter (! ·.numeric) = values.filter (! ·.numeric) := by
  induction values generalizing length with
  | nil => rfl
  | cons v rest ih =>
    rw [kept]
    split
    next left_out => rw [ih, List.filter_cons_of_neg (by simp [left_out.1])]
    next => simp only [List.filter_cons, ih]

theorem convertHexLoop_length (n v : Nat) : (convertHexLoop n v).length ≤ n := by
  induction n generalizing v with
  | zero => exact Nat.le_refl 0
  | succ n ih =>
    unfold convertHexLoop
    split
    · simp
    · simpa using ih _

theorem numeric_text_length (numeric : v.numeric = true) : v.text.length < 48 := by
  cases v with
  | integer v => exact Nat.lt_of_le_of_lt (convert_length v) (by decide)
  | double v => exact v.short
  | pointer p =>
    have digits := convertHexLoop_length 16 p
    have sign : (ascii "0x").length = 2 := rfl
    simp only [Value.text, convertHex, List.length_append, List.length_reverse]
    omega
  | _ => cases numeric

theorem kept_early {length : Nat} {before after : List Value} (split : kept length values = before ++ v :: after)
    (numeric : v.numeric = true) : length + (unbounded before).length < 3952 := by
  induction values generalizing length before with
  | nil =>
    rw [kept] at split
    cases before <;> cases split
  | cons w rest ih =>
    rw [kept] at split
    by_cases left_out : w.numeric = true ∧ 3952 ≤ length
    · rw [if_pos left_out] at split
      exact ih split
    · rw [if_neg left_out] at split
      cases before with
      | nil =>
        cases List.head_eq_of_cons_eq split
        have early : ¬ 3952 ≤ length := fun late => left_out ⟨numeric, late⟩
        rw [unbounded, List.flatMap_nil, List.length_nil]
        omega
      | cons w' before =>
        cases List.head_eq_of_cons_eq split
        have rest_early := ih (List.tail_eq_of_cons_eq split)
        rw [unbounded] at rest_early
        rw [unbounded, List.flatMap_cons, List.length_append]
        omega

/-- A number is never cut. -/
theorem kept_number_whole {before after : List Value} (split : kept 0 values = before ++ v :: after)
    (numeric : v.numeric = true) : unbounded (before ++ [v]) <+: (putAll {} values).buffer.data := by
  have early := kept_early split numeric
  have short := numeric_text_length numeric
  have start : ({} : LogStream).buffer.data = ([] : List UInt8).take 4000 := rfl
  have whole : unbounded (kept 0 values) = unbounded (before ++ [v]) ++ unbounded after := by
    simp [split, unbounded]
  have fits : (unbounded (before ++ [v])).length ≤ 4000 := by
    simp only [unbounded, List.flatMap_append, List.flatMap_cons, List.flatMap_nil, List.append_nil,
      List.length_append]
    rw [unbounded] at early
    omega
  rw [putAll_data start, List.nil_append, List.length_nil, whole]
  exact List.prefix_take_iff.mpr ⟨List.prefix_append _ _, fits⟩

/-- The buffer holds the longest prefix that fits of the text without the
numbers left out, and these are numbers that came when fewer than 49 bytes
were left; the others are there as a whole. -/
theorem content_is_prefix (values : List Value) :
    (putAll {} values).buffer.data = (unbounded (kept 0 values)).take 4000 ∧
      (kept 0 values).Sublist values ∧
      (kept 0 values).filter (! ·.numeric) = values.filter (! ·.numeric) ∧
      ∀ before v after, kept 0 values = before ++ v :: after → v.numeric = true →
        unbounded (before ++ [v]) <+: (putAll {} values).buffer.data := by
  have start : ({} : LogStream).buffer.data = ([] : List UInt8).take 4000 := rfl
  exact ⟨putAll_data start, kept_sublist 0 values, kept_others 0 values, fun _ _ _ => kept_number_whole⟩

theorem late_number {long : List UInt8} (length : long.length = 3960) :
    (putAll {} [.string long, .integer 7, .char 122]).buffer.data = long ++ [122] ∧
      (unbounded [.string long, .integer 7, .char 122]).take 4000 = long ++ [55, 122] := by
  have start : ({} : LogStream).buffer.data = ([] : List UInt8).take 4000 := rfl
  have seven : convert 7 = [55] := by decide
  have missing : unbounded (kept 0 [.string long, .integer 7, .char 122]) = long ++ [122] := by
    simp [unbounded, kept, Value.numeric, Value.text, length]
  have whole : unbounded [.string long, .integer 7, .char 122] = long ++ [55, 122] := by
    simp [unbounded, Value.text, seven]
  rw [putAll_data start, List.length_nil, List.nil_append, missing, whole]
  exact ⟨List.take_of_length_le (by simp [length]), List.take_of_length_le (by simp [length])⟩

/-- The number is missing while the character behind it is there. -/
theorem number_left_out :
    let values : List Value := [.string (List.replicate 3960 97), .integer 7, .char 122]
    (putAll {} values).buffer.data = List.replicate 3960 97 ++ [122] ∧
      (putAll {} values).buffer.data ≠ (unbounded values).take 4000 := by
  obtain ⟨content, claimed⟩ := late_number (List.length_replicate (n := 3960) (a := 97))
  refine ⟨content, fun same => ?_⟩
  have tails := List.append_cancel_left ((content.symm.trans same).trans claimed)
  cases List.head_eq_of_cons_eq tails

end LogStream

end CoroNet
