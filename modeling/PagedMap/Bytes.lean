/-
# Byte strings and the words inside them

Everything on disk is a byte string. A word of `n` bytes is its base-256
digits, most significant first (`ofNat`, `toNat`), or least significant first
in the body of a record (`ofNatLE`, `toNatLE`). Byte strings are ordered
lexicographically, byte by byte, a proper beginning before the longer string.

Key definitions: `Bytes`, `Bytes.ofNat`, `Bytes.toNat`, `Bytes.window?`,
`Bytes.fit`.
Key theorems: `Bytes.length_ofNat`, `Bytes.length_fit`, `Bytes.fit_eq`,
`Bytes.window?_eq`, `Bytes.window?_append`.
-/

namespace PagedMap

/-- A string of bytes. -/
abbrev Bytes := List UInt8

namespace Bytes

/-- The last `n` base-256 digits of `v`, most significant first. -/
def ofNat : Nat → Nat → Bytes
  | 0, _ => []
  | n + 1, v => ofNat n (v / 256) ++ [UInt8.ofNat v]

/-- The number whose base-256 digits, most significant first, are the bytes. -/
def toNat (bs : Bytes) : Nat :=
  bs.foldl (fun v b => v * 256 + b.toNat) 0

/-- The last `n` base-256 digits of `v`, least significant first. -/
def ofNatLE (n v : Nat) : Bytes := (ofNat n v).reverse

/-- The number whose base-256 digits, least significant first, are the bytes. -/
def toNatLE (bs : Bytes) : Nat := toNat bs.reverse

/-- The four bytes of a 32-bit word, most significant first. -/
def ofWord (w : UInt32) : Bytes := ofNat 4 w.toNat

/-- The 32-bit word in the first four bytes. -/
def toWord (bs : Bytes) : UInt32 := UInt32.ofNat (toNat (bs.take 4))

/-- The four bytes of an integer in two's complement, most significant first. -/
def ofInt32 (i : Int) : Bytes := ofNat 4 (i % UInt32.size).toNat

/-- The integer in two's complement in the first four bytes. -/
def toInt32 (bs : Bytes) : Int := Int.bmod (toNat (bs.take 4)) UInt32.size

/-- The first `n` bytes, if there are so many. -/
def window? (n : Nat) (bs : Bytes) : Option Bytes :=
  let first := bs.take n
  if first.length = n then some first else none

/-- The bytes cut to `n`, or filled up with zeros to `n`. -/
def fit (n : Nat) (bs : Bytes) : Bytes :=
  bs.take n ++ List.replicate (n - bs.length) 0

/-- How many bytes two strings have in common at their beginning. -/
def common : Bytes → Bytes → Nat
  | a :: as, b :: bs => if a = b then common as bs + 1 else 0
  | _, _ => 0

@[simp]
theorem length_ofNat (n v : Nat) : (ofNat n v).length = n := by
  induction n generalizing v with
  | zero => rfl
  | succ n ih => simp [ofNat, ih]

@[simp]
theorem length_ofNatLE (n v : Nat) : (ofNatLE n v).length = n := by
  simp [ofNatLE]

@[simp]
theorem length_ofWord (w : UInt32) : (ofWord w).length = 4 := length_ofNat 4 _

@[simp]
theorem length_fit (n : Nat) (bs : Bytes) : (fit n bs).length = n := by
  simp only [fit, List.length_append, List.length_take, List.length_replicate]
  omega

/-- Bytes that are not too long are filled up with zeros. -/
theorem fit_eq {n : Nat} {bs : Bytes} (h : bs.length ≤ n) :
    fit n bs = bs ++ List.replicate (n - bs.length) 0 := by
  rw [fit, List.take_of_length_le h]

/-- There are `n` bytes at the beginning if the string is so long. -/
theorem window?_eq (n : Nat) (bs : Bytes) :
    window? n bs = if n ≤ bs.length then some (bs.take n) else none := by
  simp only [window?, List.length_take]
  by_cases h : n ≤ bs.length
  · simp [h]
  · simp [h, Nat.min_eq_right (Nat.le_of_not_le h)]
    omega

theorem window?_append {n : Nat} {bs : Bytes} (h : bs.length = n) (rest : Bytes) :
    window? n (bs ++ rest) = some bs := by
  rw [window?_eq, if_pos (by simp [← h]), List.take_left' h]

end Bytes

end PagedMap
