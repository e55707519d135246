/-
# The checksum of stored bytes

The checksum is the CRC-32 with the reflected polynomial `0xEDB88320`: the
register starts with all bits set, takes in one byte after the other, least
significant bit first, and is inverted at the end.

Key definitions: `Checksum.shift`, `Checksum.absorb`, `Checksum.ofBytes`.
-/
import PagedMap.Bytes

namespace PagedMap.Checksum

/-- The polynomial, its highest power in the least significant bit. -/
def polynomial : UInt32 := 0xEDB88320

/-- Shifts one bit out of the register and subtracts the polynomial if the bit
was set. -/
def shift (register : UInt32) : UInt32 :=
  if register &&& 1 = 1 then (register >>> 1) ^^^ polynomial else register >>> 1

/-- Shifts `n` bits out of the register. -/
def shifts : Nat → UInt32 → UInt32
  | 0, register => register
  | n + 1, register => shifts n (shift register)

/-- Takes one byte into the register. -/
def absorb (register : UInt32) (b : UInt8) : UInt32 :=
  shifts 8 (register ^^^ b.toUInt32)

/-- The checksum of a byte string. -/
def ofBytes (bs : Bytes) : UInt32 :=
  (bs.foldl absorb 0xFFFFFFFF) ^^^ 0xFFFFFFFF

end PagedMap.Checksum
