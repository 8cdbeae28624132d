import CoroNet.General.Numerals
import CoroNet.Log.LogStream

namespace CoroNet

/-- The integer types that are streamed as numbers. -/
inductive IntegralType
  | short
  | unsignedShort
  | int
  | unsignedInt
  | long
  | unsignedLong
  | longLong
  | unsignedLongLong

namespace IntegralType

def width : IntegralType → Nat
  | short | unsignedShort => 16
  | int | unsignedInt => 32
  | long | unsignedLong | longLong | unsignedLongLong => 64

def signed : IntegralType → Bool
  | short | int | long | longLong => true
  | unsignedShort | unsignedInt | unsignedLong | unsignedLongLong => false

def least (t : IntegralType) : Int := if t.signed then -2 ^ (t.width - 1) else 0

def greatest (t : IntegralType) : Int := if t.signed then 2 ^ (t.width - 1) - 1 else 2 ^ t.width - 1

/-- `value` is a value of the type. -/
def Holds (t : IntegralType) (value : Int) : Prop := t.least ≤ value ∧ value ≤ t.greatest

end IntegralType

/-- The table of the digits; `zero` points to its middle. -/
def digits : List UInt8 := ascii "9876543210123456789"

def digitsHexTable : List UInt8 := ascii "0123456789ABCDEF"

/-- `*p = c` in the array `buf`; there is no result where `p` is not inside. -/
def store (buf : List UInt8) (p : Nat) (c : UInt8) : Option (List UInt8) :=
  if p < buf.length then some (buf.set p c) else none

section
variable {σ : Type*} [Zero σ] [DecidableEq σ]

/-- The loop of `convert` and `convertHex`: stores the digit of what is left
of the number, for at most `fuel` digits. -/
def storeDigits (digit : σ → Option UInt8) (shift : σ → σ) : Nat → List UInt8 → Nat → σ → Option (List UInt8 × Nat)
  | 0, _, _, _ => none
  | fuel + 1, buf, p, v => do
    let buf ← store buf p (← digit v)
    if shift v = 0 then return (buf, p + 1) else storeDigits digit shift fuel buf (p + 1) (shift v)

end

/-- Ends the text at `p` and turns it round. -/
def terminate (buf : List UInt8) (p : Nat) : Option (List UInt8 × Nat) := do
  let buf ← store buf p 0
  return ((buf.take p).reverse ++ buf.drop p, p)

def storeSign (value : Int) (buf : List UInt8) (p : Nat) : Option (List UInt8 × Nat) :=
  if value < 0 then (store buf p 45).map fun buf => (buf, p + 1) else some (buf, p)

/-- `convert` as it works on its buffer: what the buffer holds then, and the
number of chars. -/
def convertInto (buf : List UInt8) (value : Int) : Option (List UInt8 × Nat) := do
  let (buf, p) ← storeDigits (fun i => digits[(i.tmod 10 + 9).toNat]?) (fun i : Int => i.tdiv 10) 20 buf 0 value
  let (buf, p) ← storeSign value buf p
  terminate buf p

def convertHexInto (buf : List UInt8) (v : Nat) : Option (List UInt8 × Nat) := do
  let (buf, p) ← storeDigits (fun v => digitsHexTable[v &&& 0xf]?) (fun v : Nat => v >>> 4) 16 buf 0 v
  terminate buf p

/-- A pointer in the buffer of its `operator<<`. -/
def pointerInto (buf : List UInt8) (v : Nat) : Option (List UInt8 × Nat) := do
  let buf ← store buf 0 48
  let buf ← store buf 1 120
  let (text, n) ← convertHexInto (buf.drop 2) v
  return (buf.take 2 ++ text, n + 2)

theorem zero_toNat : ∀ d : Nat, d < 10 → (zero d).toNat = 48 + d := by decide

theorem digitsHex_toNat : ∀ d < 16, (digitsHex d).toNat = if d < 10 then 48 + d else 55 + d := by decide

def decimal : Numerals UInt8 10 where
  glyph d := zero d
  value c := if 48 ≤ c.toNat ∧ c.toNat < 58 then some (c.toNat - 48) else none
  value_glyph := by decide
  glyph_value c d value := by
    obtain ⟨inside, eq⟩ := Option.ite_none_right_eq_some.mp value
    have eq := Option.some.inj eq
    have small : d < 10 := by omega
    refine ⟨small, UInt8.toNat_inj.mp ?_⟩
    rw [zero_toNat d small]
    omega

def hexadecimal : Numerals UInt8 16 where
  glyph d := digitsHex d
  value c :=
    if 48 ≤ c.toNat ∧ c.toNat < 58 then some (c.toNat - 48)
    else if 65 ≤ c.toNat ∧ c.toNat < 71 then some (c.toNat - 55)
    else none
  value_glyph := by decide
  glyph_value c d value := by
    split at value
    next figure =>
      have eq := Option.some.inj value
      have small : d < 16 := by omega
      refine ⟨small, UInt8.toNat_inj.mp ?_⟩
      rw [digitsHex_toNat d small, if_pos (by omega)]
      omega
    next =>
      obtain ⟨letter, eq⟩ := Option.ite_none_right_eq_some.mp value
      have eq := Option.some.inj eq
      have small : d < 16 := by omega
      refine ⟨small, UInt8.toNat_inj.mp ?_⟩
      rw [digitsHex_toNat d small, if_neg (by omega)]
      omega

/-- The text of an integer: its digits, behind a minus if and only if it is
negative. -/
def IsDecimal (value : Int) (text : List UInt8) : Prop :=
  ∃ ds, decimal.Canonical ds ∧ decimal.read ds = some value.natAbs ∧
    text = (if value < 0 then ascii "-" else []) ++ ds

def parse (text : List UInt8) : Option Int :=
  if text.head? = some 45 then (decimal.read text.tail).map fun n : Nat => -(n : Int)
  else (decimal.read text).map fun n : Nat => (n : Int)

/-- The array with its beginning overwritten by `text`. -/
def overwrite (text buf : List UInt8) : List UInt8 := text ++ buf.drop text.length

variable {buf text : List UInt8} {value : Int} {v fuel : Nat}

theorem digits_lookup : ∀ k : Nat, k < 19 → digits[k]? = some (zero ((k : Int) - 9)) := by decide

/-- The table has the digit of a remainder on the side of its sign. -/
theorem digits_zero (i : Int) : digits[(i.tmod 10 + 9).toNat]? = some (decimal.glyph (i.natAbs % 10)) := by
  have same : (i.tmod 10).natAbs = i.natAbs % 10 := Int.natAbs_tmod i 10
  have bound : (i.tmod 10 + 9).toNat < 19 := by omega
  rw [digits_lookup _ bound]
  simp only [decimal, zero]
  congr 4
  omega

theorem digitsHexTable_lookup (v : Nat) : digitsHexTable[v &&& 0xf]? = some (hexadecimal.glyph (v % 16)) := by
  have table : ∀ d < 16, digitsHexTable[d]? = some (digitsHex d) := by decide
  have mask : v &&& 0xf = v % 16 := Nat.and_two_pow_sub_one_eq_mod v 4
  rw [mask]
  exact table _ (Nat.mod_lt _ (by decide))

theorem overwrite_append (front text buf : List UInt8) :
    overwrite (front ++ text) buf = front ++ overwrite text (buf.drop front.length) := by
  rw [overwrite, overwrite, List.length_append, List.drop_drop, List.append_assoc]

theorem store_overwrite (room : text.length < buf.length) (c : UInt8) :
    store (overwrite text buf) text.length c = some (overwrite (text ++ [c]) buf) := by
  have inside : text.length < (overwrite text buf).length := by
    rw [overwrite, List.length_append, List.length_drop]
    omega
  rw [store, if_pos inside, overwrite, List.drop_eq_getElem_cons room, List.set_append_right _ _ le_rfl, Nat.sub_self,
    List.set_cons_zero, overwrite, List.length_append, List.length_singleton, List.append_assoc, List.singleton_append]

theorem terminate_overwrite (room : text.length < buf.length) :
    terminate (overwrite text.reverse buf) text.length = some (overwrite (text ++ [0]) buf, text.length) := by
  have stored := store_overwrite (by rwa [List.length_reverse] : text.reverse.length < buf.length) 0
  rw [List.length_reverse] at stored
  rw [terminate, stored]
  simp [overwrite]

section
variable {σ : Type*} [Zero σ] [DecidableEq σ] {base : Nat} {digit : σ → Option UInt8} {shift : σ → σ}

/-- The loop stores the digits of the magnitude, the lowest first, behind what
has been stored. -/
theorem storeDigits_eq (A : Numerals UInt8 base) (magnitude : σ → Nat) (zero : ∀ s, s = 0 ↔ magnitude s = 0)
    (spell : ∀ s, digit s = some (A.glyph (magnitude s % base)))
    (shrink : ∀ s, magnitude (shift s) = magnitude s / base)
    (text : List UInt8) (s : σ) (enough : magnitude s < base ^ (fuel + 1))
    (room : (text ++ A.loop (fuel + 1) (magnitude s)).length ≤ buf.length) :
    storeDigits digit shift (fuel + 1) (overwrite text buf) text.length s =
      some (overwrite (text ++ A.loop (fuel + 1) (magnitude s)) buf,
        (text ++ A.loop (fuel + 1) (magnitude s)).length) := by
  induction fuel generalizing text s with
  | zero =>
    have small : magnitude s / base = 0 := Nat.div_eq_of_lt (by simpa using enough)
    have last : shift s = 0 := (zero _).mpr ((shrink s).trans small)
    have inside : text.length < buf.length := by simpa [Numerals.loop] using room
    simp [storeDigits, spell, store_overwrite inside, last, Numerals.loop, small]
  | succ fuel ih =>
    have fewer : magnitude (shift s) < base ^ (fuel + 1) := by
      rw [shrink]
      exact Nat.div_lt_of_lt_mul (by rwa [Nat.pow_succ, Nat.mul_comm] at enough)
    rw [Numerals.loop] at room ⊢
    have inside : text.length < buf.length := by
      rw [List.length_append, List.length_cons] at room
      omega
    rw [storeDigits, spell]
    simp only [Option.bind_eq_bind, Option.bind_some, store_overwrite inside]
    by_cases last : shift s = 0
    · have small : magnitude s / base = 0 := (shrink s).symm.trans ((zero _).mp last)
      rw [if_pos last, if_pos small]
      simp
    · have more : magnitude s / base ≠ 0 := fun small => last ((zero _).mpr ((shrink s).trans small))
      have joined : text ++ A.glyph (magnitude s % base) :: A.loop (fuel + 1) (magnitude (shift s)) =
          text ++ [A.glyph (magnitude s % base)] ++ A.loop (fuel + 1) (magnitude (shift s)) := List.append_cons _ _ _
      have length : (text ++ [A.glyph (magnitude s % base)]).length = text.length + 1 := List.length_append
      rw [if_neg more, ← shrink, joined] at room
      rw [if_neg last, if_neg more, ← shrink, joined, ← length]
      exact ih _ (shift s) fewer room

end

theorem convertLoop_eq (fuel : Nat) (i : Int) : convertLoop fuel i = decimal.loop fuel i.natAbs := by
  induction fuel generalizing i with
  | zero => rfl
  | succ fuel ih =>
    have rest : (i.tdiv 10).natAbs = i.natAbs / 10 := Int.natAbs_tdiv i 10
    have digit : zero (i.tmod 10) = decimal.glyph (i.natAbs % 10) := by
      have same : (i.tmod 10).natAbs = i.natAbs % 10 := Int.natAbs_tmod i 10
      simp only [decimal, zero, same, Int.natAbs_natCast]
    rw [convertLoop, Numerals.loop, digit, ih, rest]
    simp only [← rest, Int.natAbs_eq_zero]

theorem convertHexLoop_eq (fuel v : Nat) : convertHexLoop fuel v = hexadecimal.loop fuel v := by
  induction fuel generalizing v with
  | zero => rfl
  | succ fuel ih =>
    have digit : digitsHex v = hexadecimal.glyph (v % 16) := by
      simp only [hexadecimal, digitsHex, Nat.mod_mod]
    rw [convertHexLoop, Numerals.loop, digit, ih]

theorem convert_eq (fits : value.natAbs < 10 ^ 20) :
    convert value = (if value < 0 then ascii "-" else []) ++ decimal.write value.natAbs := by
  have sign : (if value < 0 then ascii "-" else []).reverse = if value < 0 then ascii "-" else [] := by
    split <;> rfl
  rw [convert, List.reverse_append, sign, convertLoop_eq, decimal.loop_reverse (by decide) fits]

theorem convertHex_eq (fits : v < 16 ^ 16) : convertHex v = hexadecimal.write v := by
  rw [convertHex, convertHexLoop_eq, hexadecimal.loop_reverse (by decide) fits]

theorem convert_isDecimal (fits : value.natAbs < 10 ^ 20) : IsDecimal value (convert value) :=
  ⟨_, decimal.write_canonical (by decide) _, decimal.read_write (by decide) _, convert_eq fits⟩

/-- There is no other canonical text of an integer. -/
theorem isDecimal_iff (fits : value.natAbs < 10 ^ 20) : IsDecimal value text ↔ text = convert value := by
  constructor
  · rintro ⟨ds, canonical, reads, rfl⟩
    rw [convert_eq fits, canonical.eq_write (by decide) reads]
  · rintro rfl
    exact convert_isDecimal fits

theorem canonicalHex_iff (fits : v < 16 ^ 16) :
    hexadecimal.Canonical text ∧ hexadecimal.read text = some v ↔ text = convertHex v := by
  rw [convertHex_eq fits]
  constructor
  · rintro ⟨canonical, reads⟩
    exact canonical.eq_write (by decide) reads
  · rintro rfl
    exact ⟨hexadecimal.write_canonical (by decide) v, hexadecimal.read_write (by decide) v⟩

theorem IsDecimal.parse (decimal_text : IsDecimal value text) : parse text = some value := by
  obtain ⟨ds, canonical, reads, rfl⟩ := decimal_text
  unfold CoroNet.parse
  by_cases negative : value < 0
  · rw [if_pos negative]
    have tail : (ascii "-" ++ ds).tail = ds := rfl
    have head : (ascii "-" ++ ds).head? = some 45 := rfl
    rw [if_pos head, tail, reads, Option.map_some]
    congr 1
    omega
  · rw [if_neg negative, List.nil_append]
    have head : ¬ ds.head? = some 45 := by
      intro head
      have digit := canonical.digits 45 (List.mem_of_mem_head? head)
      revert digit
      decide
    rw [if_neg head, reads, Option.map_some]
    congr 1
    omega

theorem IntegralType.Holds.bounds {t : IntegralType} (held : t.Holds value) : value.natAbs < 2 ^ 64 := by
  obtain ⟨low, high⟩ := held
  cases t <;> simp [least, greatest, signed, width] at low high <;> omega

theorem storeSign_overwrite (room : (text ++ if value < 0 then ascii "-" else []).length ≤ buf.length) :
    storeSign value (overwrite text buf) text.length =
      some (overwrite (text ++ if value < 0 then ascii "-" else []) buf,
        (text ++ if value < 0 then ascii "-" else []).length) := by
  unfold storeSign
  by_cases negative : value < 0
  · rw [if_pos negative, List.length_append] at room
    have inside : text.length < buf.length := Nat.lt_of_lt_of_le (Nat.lt_succ_self _) room
    rw [if_pos negative, if_pos negative, store_overwrite inside, List.length_append]
    rfl
  · rw [if_neg negative, if_neg negative, List.append_nil]

/-- The text goes to the beginning of the array, with a NUL behind it. -/
theorem convertInto_eq (fits : value.natAbs < 10 ^ 20) (room : (convert value).length < buf.length) :
    convertInto buf value = some (overwrite (convert value ++ [0]) buf, (convert value).length) := by
  have reversed : decimal.loop 20 value.natAbs ++ (if value < 0 then ascii "-" else []) = (convert value).reverse := by
    rw [convert, List.reverse_reverse, convertLoop_eq]
  have length := congrArg List.length reversed
  rw [List.length_reverse] at length
  have digits_room : (decimal.loop 20 value.natAbs).length ≤ buf.length := by
    rw [List.length_append] at length
    omega
  have stored : storeDigits (fun i => digits[(i.tmod 10 + 9).toNat]?) (fun i : Int => i.tdiv 10) 20 buf 0 value =
      some (overwrite (decimal.loop 20 value.natAbs) buf, (decimal.loop 20 value.natAbs).length) :=
    storeDigits_eq decimal Int.natAbs (fun s => Int.natAbs_eq_zero.symm) digits_zero
      (fun i => Int.natAbs_tdiv i 10) [] value fits digits_room
  have signed := storeSign_overwrite (length ▸ room.le)
  rw [length, reversed] at signed
  simp only [convertInto, stored, Option.bind_eq_bind, Option.bind_some, signed, terminate_overwrite room]

theorem convertHexInto_eq (fits : v < 16 ^ 16) (room : (convertHex v).length < buf.length) :
    convertHexInto buf v = some (overwrite (convertHex v ++ [0]) buf, (convertHex v).length) := by
  have reversed : hexadecimal.loop 16 v = (convertHex v).reverse := by
    rw [convertHex, List.reverse_reverse, convertHexLoop_eq]
  have length := congrArg List.length reversed
  rw [List.length_reverse] at length
  have stored : storeDigits (fun v => digitsHexTable[v &&& 0xf]?) (fun v : Nat => v >>> 4) 16 buf 0 v =
      some (overwrite (hexadecimal.loop 16 v) buf, (hexadecimal.loop 16 v).length) :=
    storeDigits_eq hexadecimal id (fun s => Iff.rfl) digitsHexTable_lookup (fun v => Nat.shiftRight_eq_div_pow v 4)
      [] v fits (length ▸ room.le)
  rw [length, reversed] at stored
  simp only [convertHexInto, stored, Option.bind_eq_bind, Option.bind_some, terminate_overwrite room]

theorem pointerInto_eq (fits : v < 16 ^ 16) (room : (convertHex v).length + 2 < buf.length) :
    pointerInto buf v = some (overwrite (ascii "0x" ++ convertHex v ++ [0]) buf, (convertHex v).length + 2) := by
  have zero_stored : store buf 0 48 = some (overwrite [48] buf) :=
    store_overwrite (show ([] : List UInt8).length < buf.length by simp; omega) 48
  have x_stored : store (overwrite [48] buf) 1 120 = some (overwrite (ascii "0x") buf) :=
    store_overwrite (show [(48 : UInt8)].length < buf.length by simp; omega) 120
  have front : (overwrite (ascii "0x") buf).take 2 = ascii "0x" := rfl
  have behind : (overwrite (ascii "0x") buf).drop 2 = buf.drop 2 := rfl
  have rest_room : (convertHex v).length < (buf.drop 2).length := by
    rw [List.length_drop]
    omega
  have converted := convertHexInto_eq fits rest_room
  simp only [pointerInto, zero_stored, x_stored, Option.bind_eq_bind, Option.bind_some, behind, converted, front]
  have joined := overwrite_append (ascii "0x") (convertHex v ++ [0]) buf
  rw [List.append_assoc, joined]
  rfl

/-- Every number that can be streamed is written as its canonical text, and
the array of `kMaxNumericSize` chars has room for it with its NUL. -/
theorem integers_formatted :
    (∀ (t : IntegralType) (value : Int), t.Holds value →
      (∀ text, IsDecimal value text ↔ text = convert value) ∧ parse (convert value) = some value ∧
      (convert value).length + 1 ≤ LogStream.kMaxNumericSize ∧
      ∀ buf : List UInt8, buf.length = LogStream.kMaxNumericSize →
        convertInto buf value = some (overwrite (convert value ++ [0]) buf, (convert value).length)) ∧
    ∀ v < 2 ^ 64,
      (∀ text, hexadecimal.Canonical text ∧ hexadecimal.read text = some v ↔ text = convertHex v) ∧
      2 + (convertHex v).length + 1 ≤ LogStream.kMaxNumericSize ∧
      ∀ buf : List UInt8, buf.length = LogStream.kMaxNumericSize →
        pointerInto buf v = some (overwrite (ascii "0x" ++ convertHex v ++ [0]) buf, (convertHex v).length + 2) := by
  refine ⟨fun t value held => ?_, fun v address => ?_⟩
  · have fits : value.natAbs < 10 ^ 20 := held.bounds.trans (by decide)
    have short := convert_length value
    simp only [LogStream.kMaxNumericSize]
    refine ⟨fun text => isDecimal_iff fits, (convert_isDecimal fits).parse, by omega, fun buf size => ?_⟩
    exact convertInto_eq fits (by omega)
  · have fits : v < 16 ^ 16 := by omega
    have short : (convertHex v).length ≤ 16 := by
      rw [convertHex_eq fits]
      exact hexadecimal.write_length (by decide) fits
    simp only [LogStream.kMaxNumericSize]
    exact ⟨fun text => canonicalHex_iff fits, by omega, fun buf size => pointerInto_eq fits (by omega)⟩

theorem least_long_formatted :
    convert (-2 ^ 63) = ascii "-9223372036854775808" ∧ parse (convert (-2 ^ 63)) = some (-2 ^ 63) := by
  have formatted := integers_formatted.1 .long (-2 ^ 63) ⟨by decide, by decide⟩
  exact ⟨by decide +kernel, formatted.2.1⟩

end CoroNet
