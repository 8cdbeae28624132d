import CoroNet.Log.Logger

namespace CoroNet

variable {size : Nat} {b : FixedBuffer size} {s : LogStream} {l : Logger} {full text : List UInt8}

/-- A buffer that holds a text as far as it fits goes on to do so. -/
theorem FixedBuffer.append_take (held : b.data = full.take size) :
    (b.append text).data = (full ++ text).take size := by
  have length : b.data.length = min size full.length := by rw [held, List.length_take]
  unfold append avail
  simp only
  rw [List.take_append, length, ← held]
  rcases Nat.le_total size full.length with filled | room
  · rw [Nat.min_eq_left filled, Nat.sub_self, Nat.sub_eq_zero_of_le filled]
  · rw [Nat.min_eq_right room]

theorem FixedBuffer.data_take : b.data = b.data.take size :=
  (List.take_of_length_le b.fits).symm

theorem LogStream.appendNumeric_room (room : s.buffer.length + 48 < 4000) (short : text.length ≤ 48) :
    (s.appendNumeric text).buffer.data = s.buffer.data ++ text := by
  have fits : text.length ≤ s.buffer.avail := by
    unfold FixedBuffer.avail
    unfold FixedBuffer.length at room
    omega
  have kept : s.appendNumeric text = s.append text := if_pos room
  rw [kept]
  exact FixedBuffer.append_data fits

namespace Logger

/-- There is room for the line break. -/
def Room (l : Logger) : Prop := l.stream.buffer.length + (strlen l.file).length + 4 < 4000

/-- The record ends its line, and is one line where no text that was streamed
has a line break. -/
structure Terminated (l : Logger) (plain : Prop) : Prop where
  last : l.record.getLast? = some newline
  single : plain → l.record.count newline = 1

/-- The stream before the line number is appended. -/
def beforeLine (l : Logger) : LogStream :=
  ((l.stream.append (ascii " - ")).append (strlen l.file)).append (ascii ":")

theorem beforeLine_data : l.beforeLine.buffer.data = l.head.take 4000 :=
  FixedBuffer.append_take (FixedBuffer.append_take (FixedBuffer.append_take FixedBuffer.data_take))

theorem head_length : l.head.length = l.stream.buffer.length + (strlen l.file).length + 4 := by
  simp [head, ascii, FixedBuffer.length]
  omega

theorem room_iff : l.Room ↔ l.head.length < 4000 := by
  rw [head_length, Room]

theorem record_eq : l.record = ((l.beforeLine.appendNumeric (convert l.line)).append [newline]).buffer.data := by
  have dash : strlen (ascii " - ") = ascii " - " := by decide
  have colon : ascii ":" = [58] := by decide
  simp only [record, suffix, LogStream.putAll, List.foldl_cons, List.foldl_nil, LogStream.put, dash, beforeLine, colon]

/-- With room the line number is there or left out, and the line break follows. -/
theorem record_of_room (room : l.Room) :
    ∃ number, newline ∉ number ∧ l.record = l.head ++ number ++ [newline] := by
  have headShort := room_iff.mp room
  have data : l.beforeLine.buffer.data = l.head := by
    rw [beforeLine_data, List.take_of_length_le (le_of_lt headShort)]
  have digits := convert_length l.line
  by_cases free : l.beforeLine.buffer.length + 48 < 4000
  · have numbered := LogStream.appendNumeric_room free (by omega : (convert l.line).length ≤ 48)
    refine ⟨convert l.line, convert_plain l.line, ?_⟩
    rw [record_eq, LogStream.append, FixedBuffer.append_data, numbered, data]
    unfold FixedBuffer.avail
    unfold FixedBuffer.length at free
    rw [numbered, List.length_append, List.length_singleton]
    omega
  · have skipped : l.beforeLine.appendNumeric (convert l.line) = l.beforeLine := if_neg free
    refine ⟨[], List.not_mem_nil, ?_⟩
    rw [record_eq, skipped, LogStream.append, FixedBuffer.append_data, data, List.append_nil]
    unfold FixedBuffer.avail
    rw [data, List.length_singleton]
    omega

/-- Without room the record is cut off before its line number. -/
theorem record_of_full (full : ¬ l.Room) : l.record = l.head.take 4000 := by
  have long : 4000 ≤ l.head.length := by
    have := mt room_iff.mpr full
    omega
  have length : l.beforeLine.buffer.data.length = 4000 := by
    rw [beforeLine_data, List.length_take]
    omega
  have skipped : l.beforeLine.appendNumeric (convert l.line) = l.beforeLine := by
    apply if_neg
    unfold FixedBuffer.length
    omega
  rw [record_eq, skipped, LogStream.append, FixedBuffer.append_take beforeLine_data, List.take_append_of_le_length long]

theorem getLast_take_4000 (long : 4000 ≤ full.length) : (full.take 4000).getLast? = full[3999]? := by
  rw [List.getLast?_take, if_neg (by decide), List.getElem?_eq_getElem (by omega)]
  rfl

/-- `~Logger` ends the record with a line break exactly where there is room
for it, or the cut falls just behind a line break that was streamed. -/
theorem terminated_iff {plain : Prop} (clean : plain → newline ∉ l.head) :
    l.Terminated plain ↔ l.Room ∨ l.head[3999]? = some newline := by
  constructor
  · intro ended
    by_cases room : l.Room
    · exact Or.inl room
    · have long : 4000 ≤ l.head.length := by
        have := mt room_iff.mpr room
        omega
      have last := ended.last
      rw [record_of_full room, getLast_take_4000 long] at last
      exact Or.inr last
  · intro kept
    by_cases room : l.Room
    · obtain ⟨number, digits, eq⟩ := record_of_room room
      refine ⟨by rw [eq, List.getLast?_concat], fun held => ?_⟩
      have absent : newline ∉ l.head ++ number := by
        rw [List.mem_append]
        exact not_or.mpr ⟨clean held, digits⟩
      rw [eq, List.count_append, List.count_eq_zero_of_not_mem absent]
      decide
    · have last := kept.resolve_left room
      have long : 4000 ≤ l.head.length := by
        have := mt room_iff.mpr room
        omega
      refine ⟨by rw [record_of_full room, getLast_take_4000 long, last], fun held => ?_⟩
      exact absurd (List.mem_of_getElem? last) (clean held)

variable {c : LogCache} {env : LogEnv} {path : List UInt8} {line : Int} {origin : Origin}

theorem timestamp_plain : newline ∉ c.timestamp env := by
  intro member
  have held := List.mem_of_mem_take member
  have dot : newline ∉ ascii "." := by decide
  have space : newline ∉ ascii " " := by decide
  have micros : newline ∉ printf 48 6 (env.nsec.tdiv 1000) := printf_plain (by decide) 6 _
  simp only [List.mem_append, c.plain.2, dot, micros, space, or_self] at held

theorem logLevelName_plain (level : LogLevel) : newline ∉ logLevelName level := by
  cases level <;> decide

theorem formatPrefix_plain (level : LogLevel) : newline ∉ (formatPrefix c env level).1.buffer.data := by
  have stamped : newline ∉ (LogStream.append {} ((c.cacheSecond env).timestamp env)).buffer.data :=
    LogStream.append_plain List.not_mem_nil timestamp_plain
  have space : newline ∉ ascii " " := by decide
  have tid := LogStream.append_plain (LogStream.append_plain stamped ((c.cacheSecond env).cacheTid env).plain.1) space
  exact LogStream.append_plain tid fun member => logLevelName_plain level (List.mem_of_mem_take member)

theorem make_plain (plain : origin.Plain) : newline ∉ (make c env path line origin).1.stream.buffer.data := by
  cases origin with
  | level level => exact formatPrefix_plain level
  | func level called =>
    cases called with
    | none => exact formatPrefix_plain level
    | some name =>
      refine LogStream.putAll_plain (formatPrefix_plain level) fun v member => ?_
      rcases List.mem_cons.mp member with rfl | member
      · exact plain name rfl
      · rw [List.mem_singleton.mp member]
        exact (by decide : (32 : UInt8) ≠ newline)
  | sys toAbort e es =>
    have text : newline ∉ es.getD (ascii "?") := by
      cases es with
      | none => decide
      | some text => exact plain text rfl
    refine LogStream.putAll_plain (formatPrefix_plain _) fun v member => ?_
    simp only [List.mem_cons, List.not_mem_nil, or_false] at member
    rcases member with rfl | rfl | rfl | rfl | rfl
    · exact (by decide : newline ∉ ascii "(errno=")
    · trivial
    · exact (by decide : newline ∉ ascii ": ")
    · exact text
    · exact (by decide : newline ∉ ascii ") ")

theorem make_file : (make c env path line origin).1.file = sourceFile path := by
  cases origin <;> rfl

theorem sourceFile_plain (plain : newline ∉ path) : newline ∉ sourceFile path := by
  intro member
  have found := (List.takeWhile_sublist _).subset (List.mem_reverse.mp member)
  exact plain (List.mem_reverse.mp found)

theorem head_plain (stream : newline ∉ l.stream.buffer.data) (file : newline ∉ l.file) : newline ∉ l.head := by
  have dash : newline ∉ ascii " - " := by decide
  have colon : newline ∉ ascii ":" := by decide
  have name : newline ∉ strlen l.file := fun member => file ((List.takeWhile_sublist _).subset member)
  simp only [head, List.mem_append, stream, dash, name, colon, or_self, not_false_iff]

/-- For a logger at any place of the source, with any values streamed into it:
its record is a line exactly where what the stream holds before `~Logger`, the
file's name and five more bytes fit into the buffer, or where the byte at the
cut is a line break itself. -/
theorem record_terminated_iff (c : LogCache) (env : LogEnv) (path : List UInt8) (line : Int) (origin : Origin)
    (values : List Value) :
    let l := (make c env path line origin).1.putAll values
    l.Terminated ((∀ v ∈ values, v.Plain) ∧ origin.Plain ∧ newline ∉ path) ↔
      l.Room ∨ l.head[3999]? = some newline := by
  intro l
  refine terminated_iff fun ⟨values, from_, plain⟩ => ?_
  have file : newline ∉ l.file := by
    have name : l.file = sourceFile path := make_file
    rw [name]
    exact sourceFile_plain plain
  exact head_plain (LogStream.putAll_plain (make_plain from_) values) file

/-- The clock and the thread of a logger that is made one second after the epoch. -/
def firstSecond : LogEnv := { sec := 1, nsec := 0, localtime := fun _ => ⟨1970, 1, 1, 0, 0, 1⟩, gettid := 7 }

/-- A logger in `main.cc` with a message of 4000 letters. -/
def longMessage : Logger :=
  (make {} firstSecond (ascii "main.cc") 10 (.level .INFO)).1.putAll [.string (List.replicate 4000 97)]

/-- Its record is the prefix and letters: the file, the line and the line
break are cut off, and the next record goes on in the same line of the log. -/
theorem longMessage_unterminated :
    longMessage.record.getLast? ≠ some newline ∧ longMessage.record.count newline = 0 := by
  have letters : newline ∉ List.replicate 4000 (97 : UInt8) := by
    intro member
    exact absurd (List.eq_of_mem_replicate member) (by decide)
  have full : ¬ longMessage.Room := by
    have length : longMessage.stream.buffer.length = 4000 := by
      change (((make {} firstSecond (ascii "main.cc") 10 (.level .INFO)).1.stream.buffer.append
        (List.replicate 4000 97)).data).length = 4000
      rw [FixedBuffer.append_take FixedBuffer.data_take, List.length_take, List.length_append, List.length_replicate]
      omega
    unfold Room
    omega
  have plain : newline ∉ longMessage.record := by
    rw [record_of_full full]
    refine fun member => head_plain ?_ ?_ (List.mem_of_mem_take member)
    · exact LogStream.append_plain (make_plain trivial) letters
    · exact sourceFile_plain (by decide : newline ∉ ascii "main.cc")
  exact ⟨fun last => plain (List.mem_of_getLast? last), List.count_eq_zero_of_not_mem plain⟩

end Logger

end CoroNet
