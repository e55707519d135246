/-
# The checksum tells strings apart that differ in one byte

When a bit is shifted out of the register, the highest bit of what is left tells which bit it
was: the polynomial has this bit, and a shifted register has not. So no two registers are shifted
to the same one (`Checksum.shift_injective`), nor do two registers, or two bytes, lead to the same
register (`Checksum.absorb_injective`). Therefore a byte that is replaced by another changes the
checksum, wherever it stands (`Checksum.ofBytes_set_ne`).

Key theorems: `Checksum.shift_injective`, `Checksum.absorb_injective`,
`Checksum.ofBytes_set_ne`.
-/
import Mathlib.Data.List.Basic
import PagedMap.Checksum

namespace PagedMap.Checksum

open Function (Injective)

/-! ### Shifting bits out -/

theorem and_one_eq_one_iff (r : UInt32) : r &&& 1 = 1 ↔ r.toBitVec.getLsbD 0 = true := by
  rw [← UInt32.toBitVec_inj, UInt32.toBitVec_and]
  change r.toBitVec &&& 1#32 = 1#32 ↔ _
  rw [BitVec.and_one_eq_setWidth_ofBool_getLsbD]
  cases r.toBitVec.getLsbD 0 <;> decide

/-- The highest bit tells which bit was shifted out. -/
theorem highest_shift (r : UInt32) :
    (shift r).toBitVec.getLsbD 31 = r.toBitVec.getLsbD 0 := by
  have hpolynomial : polynomial.toBitVec.getLsbD 31 = true := by decide
  have hshifted : (r >>> 1).toBitVec.getLsbD 31 = false := by
    rw [UInt32.toBitVec_shiftRight]
    change (r.toBitVec >>> 1).getLsbD 31 = false
    rw [BitVec.getLsbD_ushiftRight]
    exact BitVec.getLsbD_of_ge _ _ (by decide)
  rw [shift]
  split
  next hbit =>
    rw [UInt32.toBitVec_xor, BitVec.getLsbD_xor, hshifted, hpolynomial,
      (and_one_eq_one_iff r).1 hbit]
    rfl
  next hbit =>
    rw [hshifted, eq_comm, ← Bool.not_eq_true, ← and_one_eq_one_iff]
    exact hbit

/-- The lowest bit and the others are the register. -/
theorem eq_of_shiftRight {r s : UInt32} (hlowest : r.toBitVec.getLsbD 0 = s.toBitVec.getLsbD 0)
    (hothers : r >>> 1 = s >>> 1) : r = s := by
  rw [← UInt32.toBitVec_inj]
  refine BitVec.eq_of_getLsbD_eq fun i hi => ?_
  cases i with
  | zero => exact hlowest
  | succ i =>
    have hbit := congrArg (fun w : UInt32 => w.toBitVec.getLsbD i) hothers
    simp only [UInt32.toBitVec_shiftRight] at hbit
    change (r.toBitVec >>> 1).getLsbD i = (s.toBitVec >>> 1).getLsbD i at hbit
    rw [BitVec.getLsbD_ushiftRight, BitVec.getLsbD_ushiftRight, Nat.add_comm 1 i] at hbit
    exact hbit

/-- No two registers are shifted to the same one. -/
theorem shift_injective : Injective shift := by
  intro r s h
  have hlowest : r.toBitVec.getLsbD 0 = s.toBitVec.getLsbD 0 := by
    rw [← highest_shift, ← highest_shift, h]
  have hsame : r &&& 1 = 1 ↔ s &&& 1 = 1 := by
    rw [and_one_eq_one_iff, and_one_eq_one_iff, hlowest]
  refine eq_of_shiftRight hlowest ?_
  rw [shift, shift] at h
  by_cases hbit : r &&& 1 = 1
  · rw [if_pos hbit, if_pos (hsame.1 hbit)] at h
    exact (UInt32.xor_left_inj _).1 h
  · rwa [if_neg hbit, if_neg (mt hsame.2 hbit)] at h

theorem shifts_injective : ∀ n, Injective (shifts n)
  | 0 => fun _ _ h => h
  | n + 1 => (shifts_injective n).comp shift_injective

/-! ### Taking bytes in -/

theorem absorb_injective (r : UInt32) : Injective (absorb r) := by
  intro b c h
  have hbytes : b.toUInt32 = c.toUInt32 := (UInt32.xor_right_inj _).1 (shifts_injective 8 h)
  exact UInt8.toUInt32_inj.1 hbytes

theorem absorb_left_injective (b : UInt8) : Injective (absorb · b) :=
  fun _ _ h => (UInt32.xor_left_inj _).1 (shifts_injective 8 h)

theorem foldl_absorb_injective : ∀ bs : Bytes, Injective (bs.foldl absorb ·)
  | [] => fun _ _ h => h
  | b :: bs => (foldl_absorb_injective bs).comp (absorb_left_injective b)

/-- Strings that differ in one byte have different checksums. -/
theorem ofBytes_ne {b c : UInt8} (h : b ≠ c) (bs cs : Bytes) :
    ofBytes (bs ++ b :: cs) ≠ ofBytes (bs ++ c :: cs) := by
  intro heq
  have hregisters := (UInt32.xor_left_inj _).1 heq
  rw [List.foldl_append, List.foldl_append, List.foldl_cons, List.foldl_cons] at hregisters
  exact h (absorb_injective _ (foldl_absorb_injective cs hregisters))

/-- A byte that is replaced by another changes the checksum. -/
theorem ofBytes_set_ne {bs : Bytes} {i : Nat} {b : UInt8} (hi : i < bs.length) (hb : b ≠ bs[i]) :
    ofBytes (bs.set i b) ≠ ofBytes bs := by
  have hold : bs.take i ++ bs[i] :: bs.drop (i + 1) = bs := by
    rw [← List.drop_eq_getElem_cons hi, List.take_append_drop]
  have hne := ofBytes_ne hb (bs.take i) (bs.drop (i + 1))
  rw [hold] at hne
  rwa [List.set_eq_take_append_cons_drop, if_pos hi]

end PagedMap.Checksum
