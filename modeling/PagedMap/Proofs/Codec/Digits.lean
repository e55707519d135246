/-
# Digits and the numbers they write

The last digits of a number give it back as far as they reach, and the number
that digits write gives the digits back, whichever end comes first.

Key theorems: `Bytes.toNat_ofNat`, `Bytes.ofNat_toNat`, `Bytes.toNat_lt`,
`Bytes.toNatLE_ofNatLE`, `Bytes.toWord_ofWord_append`, `Bytes.ofNat_toWord`.
-/
import Mathlib.Algebra.Order.Ring.Int
import PagedMap.Bytes

namespace PagedMap

namespace Bytes

@[simp]
theorem toNat_concat (bs : Bytes) (b : UInt8) : toNat (bs ++ [b]) = toNat bs * 256 + b.toNat := by
  simp [toNat]

/-- The digits give the number back, as far as they reach. -/
theorem toNat_ofNat (n v : Nat) : toNat (ofNat n v) = v % 256 ^ n := by
  induction n generalizing v with
  | zero => simp [ofNat, toNat, Nat.mod_one]
  | succ n ih =>
    have hb : (UInt8.ofNat v).toNat = v % 256 := UInt8.toNat_ofNat' ..
    rw [ofNat, toNat_concat, ih, hb, Nat.pow_succ', Nat.mod_mul]
    omega

theorem toNat_ofNat_of_lt {n v : Nat} (h : v < 256 ^ n) : toNat (ofNat n v) = v := by
  rw [toNat_ofNat, Nat.mod_eq_of_lt h]

/-- The number of the digits gives the digits back. -/
theorem ofNat_toNat_of_length : ∀ {n : Nat} {bs : Bytes}, bs.length = n → ofNat n (toNat bs) = bs
  | 0, bs, h => by rw [List.eq_nil_of_length_eq_zero h, ofNat]
  | n + 1, bs, h => by
    rcases List.eq_nil_or_concat bs with rfl | ⟨init, b, rfl⟩
    · simp at h
    rw [List.concat_eq_append] at h ⊢
    have hlen : init.length = n := by simpa using h
    have hlt := b.toNat_lt
    have hdiv : toNat (init ++ [b]) / 256 = toNat init := by rw [toNat_concat]; omega
    have hb : UInt8.ofNat (toNat (init ++ [b])) = b := by
      rw [← UInt8.toNat_inj, UInt8.toNat_ofNat', toNat_concat]
      omega
    rw [ofNat, hdiv, ofNat_toNat_of_length hlen, hb]

theorem ofNat_toNat (bs : Bytes) : ofNat bs.length (toNat bs) = bs := ofNat_toNat_of_length rfl

theorem toNat_lt (bs : Bytes) : toNat bs < 256 ^ bs.length := by
  rw [← ofNat_toNat bs, length_ofNat, toNat_ofNat]
  exact Nat.mod_lt _ (Nat.pow_pos (by decide))

/-- The digits with the least first give the number back, as far as they reach. -/
theorem toNatLE_ofNatLE (n v : Nat) : toNatLE (ofNatLE n v) = v % 256 ^ n := by
  rw [toNatLE, ofNatLE, List.reverse_reverse, toNat_ofNat]

/-- A word of four digits is read from the front of what follows. -/
theorem toWord_ofNat_append (v : Nat) (bs : Bytes) :
    toWord (ofNat 4 v ++ bs) = UInt32.ofNat v := by
  rw [toWord, List.take_left' (length_ofNat 4 v), toNat_ofNat]
  exact (UInt32.ofNat_mod_size (x := v))

@[simp]
theorem toWord_ofWord_append (w : UInt32) (bs : Bytes) : toWord (ofWord w ++ bs) = w := by
  rw [ofWord, toWord_ofNat_append, UInt32.ofNat_toNat]

/-- The digits of the word in the first four bytes are these. -/
theorem ofNat_toWord {bs : Bytes} (h : 4 ≤ bs.length) : ofNat 4 (toWord bs).toNat = bs.take 4 := by
  have hlen : (bs.take 4).length = 4 := List.length_take_of_le h
  have hlt := toNat_lt (bs.take 4)
  rw [hlen] at hlt
  have hword : (toWord bs).toNat = toNat (bs.take 4) := UInt32.toNat_ofNat_of_lt hlt
  rw [hword, ofNat_toNat_of_length hlen]

end Bytes

end PagedMap
