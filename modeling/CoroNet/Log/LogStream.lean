import CoroNet.Log.FixedBuffer
import Mathlib.Algebra.Ring.Int.Defs
import Mathlib.Data.Int.Basic
import Mathlib.Order.Lattice

namespace CoroNet

/-- The bytes of an ASCII text of the source. -/
def ascii (s : String) : List UInt8 := s.toList.map fun c => UInt8.ofNat c.toNat

def newline : UInt8 := 10

abbrev SmallBuffer := FixedBuffer 4000

inductive LogLevel
  | TRACE
  | DEBUG
  | INFO
  | WARN
  | ERROR
  | FATAL
  | NUM_LOG_LEVELS
deriving DecidableEq

def logLevelName : LogLevel → List UInt8
  | .TRACE => ascii "TRACE "
  | .DEBUG => ascii "DEBUG "
  | .INFO => ascii "INFO  "
  | .WARN => ascii "WARN  "
  | .ERROR => ascii "ERROR "
  | .FATAL => ascii "FATAL "
  | .NUM_LOG_LEVELS => ascii "?????? "

/-- `zero[lsd]`; the table has the same digit on both sides of 0. -/
def zero (lsd : Int) : UInt8 := 48 + UInt8.ofNat (lsd.natAbs % 10)

/-- The loop of `convert`, lowest digit first, for at most `n` digits. -/
def convertLoop : Nat → Int → List UInt8
  | 0, _ => []
  | n + 1, i => zero (i.tmod 10) :: if i.tdiv 10 = 0 then [] else convertLoop n (i.tdiv 10)

/-- A 64-bit number has at most 20 digits. -/
def convert (value : Int) : List UInt8 :=
  (convertLoop 20 value ++ if value < 0 then ascii "-" else []).reverse

def digitsHex (lsd : Nat) : UInt8 :=
  if lsd % 16 < 10 then 48 + UInt8.ofNat (lsd % 16) else 55 + UInt8.ofNat (lsd % 16)

def convertHexLoop : Nat → Nat → List UInt8
  | 0, _ => []
  | n + 1, v => digitsHex v :: if v / 16 = 0 then [] else convertHexLoop n (v / 16)

/-- An address has at most 16 digits. -/
def convertHex (v : Nat) : List UInt8 := (convertHexLoop 16 v).reverse

/-- A string that C code reads up to its NUL. -/
def strlen (s : List UInt8) : List UInt8 := s.takeWhile (· ≠ 0)

/-- What `snprintf` makes of a floating-point number with "%.12g". -/
structure DoubleText where
  text : List UInt8
  short : text.length < 48
  plain : newline ∉ text

/-- A value that is streamed. The integer types share `format_integer`,
`string` stands for `string_view` as well. -/
inductive Value
  | bool (v : Bool)
  | integer (v : Int)
  | double (v : DoubleText)
  | char (v : UInt8)
  | cString (str : Option (List UInt8))
  | string (s : List UInt8)
  | pointer (p : Nat)

structure LogStream where
  buffer : SmallBuffer := {}

namespace LogStream

def kMaxNumericSize : Nat := 48

def append (s : LogStream) (data : List UInt8) : LogStream := { buffer := s.buffer.append data }

/-- A number is left out where fewer than 49 bytes are free. -/
def appendNumeric (s : LogStream) (text : List UInt8) : LogStream :=
  if s.buffer.length + kMaxNumericSize < 4000 then s.append text else s

/-- `operator<<`. -/
def put (s : LogStream) : Value → LogStream
  | .bool v => s.append (ascii (if v then "1" else "0"))
  | .integer v => s.appendNumeric (convert v)
  | .double v => s.appendNumeric v.text
  | .char v => s.append [v]
  | .cString (some str) => s.append (strlen str)
  | .cString none => s.append (ascii "(null)")
  | .string data => s.append data
  | .pointer p => s.appendNumeric (ascii "0x" ++ convertHex p)

def putAll (s : LogStream) (values : List Value) : LogStream := values.foldl put s

end LogStream

/-- The text of a value has no line break of its own. -/
def Value.Plain : Value → Prop
  | .char v => v ≠ newline
  | .cString (some str) => newline ∉ str
  | .string s => newline ∉ s
  | _ => True

variable {s : LogStream} {data text : List UInt8}

theorem zero_ne_newline (lsd : Int) : zero lsd ≠ newline := by
  have table : ∀ d < 10, 48 + UInt8.ofNat d ≠ newline := by decide
  exact table _ (Nat.mod_lt _ (by decide))

theorem convertLoop_plain (n : Nat) (i : Int) : newline ∉ convertLoop n i := by
  induction n generalizing i with
  | zero => exact List.not_mem_nil
  | succ n ih =>
    unfold convertLoop
    split
    · simpa using (zero_ne_newline _).symm
    · simpa using ⟨(zero_ne_newline _).symm, ih _⟩

theorem convertLoop_length (n : Nat) (i : Int) : (convertLoop n i).length ≤ n := by
  induction n generalizing i with
  | zero => exact Nat.le_refl 0
  | succ n ih =>
    unfold convertLoop
    split
    · simp
    · simpa using ih _

theorem convert_plain (value : Int) : newline ∉ convert value := by
  intro member
  rcases List.mem_append.mp (List.mem_reverse.mp member) with digit | sign
  · exact convertLoop_plain 20 value digit
  · split at sign
    · exact absurd sign (by decide)
    · cases sign

theorem convert_length (value : Int) : (convert value).length ≤ 21 := by
  have digits := convertLoop_length 20 value
  unfold convert
  split <;> simp [ascii] <;> omega

theorem digitsHex_ne_newline (lsd : Nat) : digitsHex lsd ≠ newline := by
  have table : ∀ d < 16, (if d < 10 then 48 + UInt8.ofNat d else 55 + UInt8.ofNat d) ≠ newline := by decide
  exact table _ (Nat.mod_lt _ (by decide))

theorem convertHexLoop_plain (n v : Nat) : newline ∉ convertHexLoop n v := by
  induction n generalizing v with
  | zero => exact List.not_mem_nil
  | succ n ih =>
    unfold convertHexLoop
    split
    · simpa using (digitsHex_ne_newline _).symm
    · simpa using ⟨(digitsHex_ne_newline _).symm, ih _⟩

theorem FixedBuffer.mem_append {size : Nat} {b : FixedBuffer size} {c : UInt8} (member : c ∈ (b.append data).data) :
    c ∈ b.data ∨ c ∈ data := by
  rcases List.mem_append.mp member with before | added
  · exact Or.inl before
  · exact Or.inr (List.mem_of_mem_take added)

/-- Streaming values without line breaks brings none into the buffer. -/
theorem LogStream.append_plain (plain : newline ∉ s.buffer.data) (added : newline ∉ data) :
    newline ∉ (s.append data).buffer.data := by
  intro member
  exact (FixedBuffer.mem_append member).elim plain added

theorem LogStream.appendNumeric_plain (plain : newline ∉ s.buffer.data) (added : newline ∉ text) :
    newline ∉ (s.appendNumeric text).buffer.data := by
  unfold appendNumeric
  split
  · exact append_plain plain added
  · exact plain

theorem LogStream.put_plain {v : Value} (plain : newline ∉ s.buffer.data) (added : v.Plain) :
    newline ∉ (s.put v).buffer.data := by
  cases v with
  | bool v => exact append_plain plain (by cases v <;> decide)
  | integer v => exact appendNumeric_plain plain (convert_plain v)
  | double v => exact appendNumeric_plain plain v.plain
  | char v => exact append_plain plain (by simpa using Ne.symm added)
  | cString str =>
    cases str with
    | none => exact append_plain plain (by decide)
    | some str => exact append_plain plain fun member => added ((List.takeWhile_sublist _).subset member)
  | string data => exact append_plain plain added
  | pointer p =>
    refine appendNumeric_plain plain fun member => ?_
    rcases List.mem_append.mp member with sign | digits
    · exact absurd sign (by decide)
    · exact convertHexLoop_plain 16 p (List.mem_reverse.mp digits)

theorem LogStream.putAll_plain {values : List Value} (plain : newline ∉ s.buffer.data)
    (added : ∀ v ∈ values, v.Plain) : newline ∉ (s.putAll values).buffer.data := by
  induction values generalizing s with
  | nil => exact plain
  | cons v rest ih =>
    have first := LogStream.put_plain plain (added v List.mem_cons_self)
    exact ih first fun w member => added w (List.mem_cons_of_mem v member)

end CoroNet
