import Mathlib.Algebra.Ring.Nat
import Mathlib.Data.List.Basic

namespace CoroNet

/-- `FixedBuffer<SIZE>`: the bytes between `data_` and `cur_`. -/
structure FixedBuffer (size : Nat) where
  data : List UInt8 := []
  fits : data.length ≤ size := by exact Nat.zero_le _

namespace FixedBuffer

variable {size : Nat}

def length (b : FixedBuffer size) : Nat := b.data.length

def avail (b : FixedBuffer size) : Nat := size - b.data.length

/-- What does not fit is cut off. -/
def append (b : FixedBuffer size) (buf : List UInt8) : FixedBuffer size where
  data := b.data ++ buf.take b.avail
  fits := by
    have taken := List.length_take_le b.avail buf
    have held := b.fits
    rw [List.length_append]
    unfold avail at *
    omega

def reset (_ : FixedBuffer size) : FixedBuffer size := {}

theorem append_data {b : FixedBuffer size} {buf : List UInt8} (room : buf.length ≤ b.avail) :
    (b.append buf).data = b.data ++ buf := by
  simp only [append, List.take_of_length_le room]

end FixedBuffer

/-- The buffers that travel between the front-ends and the back-end, 4 MB. -/
abbrev LargeBuffer := FixedBuffer (4 * 1024 * 1024)

end CoroNet
