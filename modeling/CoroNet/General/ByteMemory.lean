import Mathlib.Data.List.GetD

/-- A memory of bytes. -/
abbrev ByteMemory := Nat → UInt8

namespace ByteMemory

variable {memory : ByteMemory} {address start : Nat} {bytes data : List UInt8} {n m k : Nat}

def read (memory : ByteMemory) (address n : Nat) : List UInt8 := (List.range n).map fun i => memory (address + i)

def write (memory : ByteMemory) (start : Nat) (bytes : List UInt8) : ByteMemory := fun x =>
  if start ≤ x then bytes.getD (x - start) (memory x) else memory x

@[simp]
theorem length_read (memory : ByteMemory) (address n : Nat) : (memory.read address n).length = n := by
  simp [read]

theorem read_add (memory : ByteMemory) (address n m : Nat) :
    memory.read address (n + m) = memory.read address n ++ memory.read (address + n) m := by
  simp [read, List.range_add, Nat.add_assoc]

theorem write_apart {x : Nat} (apart : x < start ∨ start + bytes.length ≤ x) :
    memory.write start bytes x = memory x := by
  unfold write
  split
  · rw [List.getD_eq_default _ _ (by omega)]
  · rfl

/-- A write does not change what is read elsewhere. -/
theorem read_write_apart (apart : address + n ≤ start ∨ start + bytes.length ≤ address) :
    (memory.write start bytes).read address n = memory.read address n := by
  refine List.map_congr_left fun i member => write_apart ?_
  have below := List.mem_range.mp member
  omega

/-- A read of a part of what is known to be there. -/
theorem read_part (whole : memory.read address data.length = data) (within : k + n ≤ data.length) :
    memory.read (address + k) n = (data.drop k).take n := by
  obtain ⟨rest, split⟩ := Nat.exists_eq_add_of_le within
  rw [split, read_add, read_add] at whole
  rw [← whole, List.append_assoc, List.drop_left' (length_read ..), List.take_left' (length_read ..)]

end ByteMemory
