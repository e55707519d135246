/-
# The bits of a bitset

A bit of a byte is a bit of the number that the byte is (`Bitset.testBit_eq`). Setting
and clearing a bit of a bitset changes what `get` tells of this bit and of no other.
While no bit below the hint is clear, the search finds the lowest clear bit
(`Bitset.firstClear?_spec`).

Key definition: `Bitset.Valid`.
Key theorems: `Bitset.get_set`, `Bitset.get_clear`, `Bitset.firstClear?_spec`.
-/
import Mathlib.Algebra.Order.Ring.Int
import Mathlib.Data.Nat.Bitwise
import PagedMap.Bitset

namespace PagedMap.Bitset

variable {s : Bitset} {b : UInt8} {i j k : Nat}

/-! ### Bits of bytes -/

theorem toNat_mask (hk : k < 8) : (mask k).toNat = 2 ^ k := by
  have hall : ∀ k : Fin 8, (mask k).toNat = 2 ^ (k : Nat) := by decide
  exact hall ⟨k, hk⟩

theorem testBit_eq (hk : k < 8) : testBit b k = b.toNat.testBit k := by
  have hand : (b &&& mask k).toNat = (b.toNat.testBit k).toNat * 2 ^ k := by
    rw [UInt8.toNat_and, toNat_mask hk, Nat.and_two_pow]
  rw [testBit]
  cases hbit : b.toNat.testBit k with
  | false =>
    rw [hbit, Bool.toNat_false, Nat.zero_mul] at hand
    rw [UInt8.toNat_inj.1 (hand.trans UInt8.toNat_zero.symm)]
    rfl
  | true =>
    rw [hbit, Bool.toNat_true, Nat.one_mul] at hand
    rw [bne_iff_ne]
    intro hzero
    rw [hzero] at hand
    exact Nat.ne_of_gt (Nat.two_pow_pos k) hand.symm

theorem testBit_or_mask (hj : j < 8) (hk : k < 8) :
    testBit (b ||| mask k) j = (testBit b j || decide (j = k)) := by
  rw [testBit_eq hj, testBit_eq hj, UInt8.toNat_or, toNat_mask hk, Nat.testBit_or,
    Nat.testBit_two_pow, decide_eq_decide.2 eq_comm]

theorem testBit_and_not_mask (hj : j < 8) (hk : k < 8) :
    testBit (b &&& ~~~ mask k) j = (testBit b j && !decide (j = k)) := by
  have hlt : 2 ^ k < 2 ^ 8 := Nat.pow_lt_pow_right (by decide) hk
  have hnot : (~~~ mask k).toNat = 2 ^ 8 - (2 ^ k + 1) := by
    rw [UInt8.toNat_not, toNat_mask hk, show UInt8.size = 2 ^ 8 from rfl]
    omega
  rw [testBit_eq hj, testBit_eq hj, UInt8.toNat_and, hnot, Nat.testBit_and,
    Nat.testBit_two_pow_sub_succ hlt, Nat.testBit_two_pow, decide_eq_true hj, Bool.true_and,
    decide_eq_decide.2 eq_comm]

theorem testBit_ones (hk : k < 8) : testBit 0xFF k = true := by
  rw [testBit_eq hk, show (0xFF : UInt8).toNat = 2 ^ 8 - 1 from rfl, Nat.testBit_two_pow_sub_one]
  exact decide_eq_true hk

/-- A byte whose bits are all set is the largest. -/
theorem eq_ones (h : ∀ k < 8, testBit b k = true) : b = 0xFF := by
  refine UInt8.toNat_inj.1 (Nat.eq_of_testBit_eq fun i => ?_)
  rw [show (0xFF : UInt8).toNat = 2 ^ 8 - 1 from rfl, Nat.testBit_two_pow_sub_one]
  by_cases hi : i < 8
  · rw [← testBit_eq hi, h i hi, decide_eq_true hi]
  · rw [decide_eq_false hi]
    exact Nat.testBit_lt_two_pow (Nat.lt_of_lt_of_le b.toNat_lt
      (Nat.pow_le_pow_right (by decide) (Nat.not_lt.1 hi)))

/-! ### Setting and clearing -/

theorem byte_setByte (s : Bitset) (i : Nat) (b : UInt8) (j : Nat) :
    (s.setByte i b).getD j 0 = if j = i then b else s.byte j := by
  simp only [setByte, byte, List.getD_eq_getElem?_getD]
  by_cases hi : i < s.bytes.length
  · rw [if_pos hi, List.getElem?_set]
    by_cases hj : j = i
    · subst hj
      simp [hi]
    · simp [hj, Ne.symm hj]
  · rw [if_neg hi]
    have hlen : (s.bytes ++ List.replicate (i - s.bytes.length) 0).length = i := by
      rw [List.length_append, List.length_replicate]
      omega
    by_cases hj : j = i
    · subst hj
      rw [if_pos rfl, List.getElem?_append_right (Nat.le_of_eq hlen), hlen]
      simp
    · rw [if_neg hj]
      rcases Nat.lt_or_gt_of_ne hj with hlt | hgt
      · rw [List.getElem?_append_left (by omega)]
        by_cases hjs : j < s.bytes.length
        · rw [List.getElem?_append_left hjs]
        · rw [List.getElem?_append_right (Nat.not_lt.1 hjs), List.getElem?_replicate,
            List.getElem?_eq_none (Nat.not_lt.1 hjs)]
          split <;> rfl
      · rw [List.getElem?_eq_none (by simp; omega), List.getElem?_eq_none (by omega)]

theorem eq_iff_div_mod : j = i ↔ j / 8 = i / 8 ∧ j % 8 = i % 8 := by omega

/-- Setting a bit. -/
theorem get_set (s : Bitset) (i j : Nat) : (s.set i).get j = (s.get j || decide (j = i)) := by
  rw [set]
  by_cases hi : s.get i = true
  · rw [if_pos hi]
    by_cases hj : j = i
    · subst hj
      rw [hi]
      exact hi
    · rw [decide_eq_false hj, Bool.or_false]
      rfl
  · rw [if_neg hi]
    simp only [get, byte, byte_setByte]
    have hlt := Nat.mod_lt j (show 8 > 0 by decide)
    have hlt' := Nat.mod_lt i (show 8 > 0 by decide)
    by_cases hbyte : j / 8 = i / 8
    · rw [if_pos hbyte, testBit_or_mask hlt hlt', hbyte]
      simp only [eq_iff_div_mod (j := j), hbyte, true_and]
    · rw [if_neg hbyte]
      simp only [eq_iff_div_mod (j := j), hbyte, false_and, decide_false, Bool.or_false]

/-- Clearing a bit. -/
theorem get_clear (s : Bitset) (i j : Nat) :
    (s.clear i).get j = (s.get j && !decide (j = i)) := by
  rw [clear]
  by_cases hi : s.get i = true
  · rw [if_pos hi]
    simp only [get, byte, byte_setByte]
    have hlt := Nat.mod_lt j (show 8 > 0 by decide)
    have hlt' := Nat.mod_lt i (show 8 > 0 by decide)
    by_cases hbyte : j / 8 = i / 8
    · rw [if_pos hbyte, testBit_and_not_mask hlt hlt', hbyte]
      simp only [eq_iff_div_mod (j := j), hbyte, true_and]
    · rw [if_neg hbyte]
      simp only [eq_iff_div_mod (j := j), hbyte, false_and, decide_false, Bool.not_false,
        Bool.and_true]
  · rw [if_neg hi]
    change s.get j = _
    by_cases hj : j = i
    · subst hj
      rw [Bool.eq_false_iff.2 hi]
      rfl
    · rw [decide_eq_false hj, Bool.not_false, Bool.and_true]

theorem max_set (s : Bitset) (i : Nat) : (s.set i).max = s.max := by
  rw [set]
  split <;> rfl

theorem max_clear (s : Bitset) (i : Nat) : (s.clear i).max = s.max := by
  rw [clear]
  split <;> rfl

theorem get_empty (max i : Nat) : (empty max).get i = false := by
  simp [empty, get, byte, testBit]

/-! ### Searching -/

/-- No bit below the hint is clear, and no bit is set that is not there. -/
structure Valid (s : Bitset) : Prop where
  get_of_lt : ∀ i < s.hint, s.get i = true
  lt_max : ∀ i, s.get i = true → i < s.max

theorem valid_empty (max : Nat) : (empty max).Valid :=
  ⟨(fun _ hi => by cases hi), fun i hi => by rw [get_empty] at hi; cases hi⟩

theorem Valid.set (h : s.Valid) (hi : i < s.max) : (s.set i).Valid := by
  refine ⟨fun j hj => ?_, fun j hj => ?_⟩
  · rw [get_set, Bool.or_eq_true, decide_eq_true_iff]
    by_cases hji : j = i
    · exact .inr hji
    · refine .inl (h.get_of_lt j ?_)
      have hhint : (s.set i).hint = if s.hint = i then i + 1 else s.hint := by
        rw [Bitset.set]
        split <;> rfl
      rw [hhint] at hj
      split at hj <;> omega
  · rw [get_set, Bool.or_eq_true, decide_eq_true_iff] at hj
    rw [max_set]
    rcases hj with hj | rfl
    · exact h.lt_max j hj
    · exact hi

theorem Valid.clear (h : s.Valid) (i : Nat) : (s.clear i).Valid := by
  refine ⟨fun j hj => ?_, fun j hj => ?_⟩
  · have hhint : (s.clear i).hint = min s.hint i := by
      rw [Bitset.clear]
      split <;> rfl
    rw [hhint] at hj
    rw [get_clear, h.get_of_lt j (by omega), decide_eq_false (by omega)]
    rfl
  · rw [get_clear, Bool.and_eq_true] at hj
    rw [max_clear]
    exact h.lt_max j hj.1

theorem length_takeWhile {α : Type} (p : α → Bool) (xs : List α) :
    (xs.takeWhile p).length = xs.findIdx fun x => !p x := by
  rw [List.takeWhile_eq_take_findIdx_not, List.length_take]
  exact Nat.min_eq_left List.findIdx_le_length

/-- The bits below the lowest clear bit of a byte are set. -/
theorem lowestClear_spec (b : UInt8) :
    (∀ k < lowestClear b, testBit b k = true) ∧
      (b ≠ 0xFF → lowestClear b < 8 ∧ testBit b (lowestClear b) = false) := by
  have hbelow : ∀ k < lowestClear b, testBit b k = true := by
    intro k hk
    rw [lowestClear, length_takeWhile] at hk
    have hbit := List.not_of_lt_findIdx hk
    simpa using hbit
  refine ⟨hbelow, fun hb => ?_⟩
  have hlt : lowestClear b < 8 := by
    by_contra hge
    exact hb (eq_ones fun k hk => hbelow k (by omega))
  refine ⟨hlt, ?_⟩
  have hlt' : (List.range 8).findIdx (fun x => !testBit b x) < (List.range 8).length := by
    rw [← length_takeWhile]
    exact hlt
  have hbit := List.findIdx_getElem (w := hlt')
  rw [List.getElem_range] at hbit
  rw [lowestClear, length_takeWhile]
  simpa using hbit

theorem get_add (s : Bitset) (index : Nat) (hk : k < 8) :
    s.get (index * 8 + k) = testBit (s.byte index) k := by
  rw [get, show (index * 8 + k) / 8 = index by omega, show (index * 8 + k) % 8 = k by omega]

/-- The first byte from a start on with a clear bit; the bytes that are not kept have
eight. -/
theorem firstOpenByte_spec (s : Bitset) {start index : Nat}
    (h : index = start + ((s.bytes.drop start).takeWhile (· = 0xFF)).length) :
    (∀ m < index, start ≤ m → s.byte m = 0xFF) ∧ s.byte index ≠ 0xFF := by
  have hbyte {m : Nat} (hm : m < s.bytes.length) : s.byte m = s.bytes[m] := by
    rw [byte, List.getD_eq_getElem?_getD, List.getElem?_eq_getElem hm]
    rfl
  rw [length_takeWhile] at h
  constructor
  · intro m hm hstart
    have hlt : m - start < (s.bytes.drop start).findIdx fun x => !decide (x = 0xFF) := by omega
    have hfull := List.not_of_lt_findIdx hlt
    have hlen := Nat.lt_of_lt_of_le hlt List.findIdx_le_length
    rw [List.length_drop] at hlen
    rw [List.getElem_drop] at hfull
    rw [hbyte (by omega)]
    simpa [Nat.add_sub_cancel' hstart] using hfull
  · by_cases hlen : index < s.bytes.length
    · have hlt : (s.bytes.drop start).findIdx (fun x => !decide (x = 0xFF)) <
          (s.bytes.drop start).length := by
        rw [List.length_drop]
        omega
      have hopen := List.findIdx_getElem (w := hlt)
      rw [List.getElem_drop] at hopen
      rw [hbyte hlen]
      simpa [h] using hopen
    · rw [byte, List.getD_eq_getElem?_getD, List.getElem?_eq_none (Nat.not_lt.1 hlen)]
      decide

/-- The search finds the lowest clear bit, unless all bits are set. -/
theorem firstClear?_spec (h : s.Valid) : match s.firstClear? with
    | some i => i < s.max ∧ s.get i = false ∧ ∀ j < i, s.get j = true
    | none => ∀ j < s.max, s.get j = true := by
  obtain ⟨index, hindex⟩ : ∃ index, index =
      s.hint / 8 + ((s.bytes.drop (s.hint / 8)).takeWhile (· = 0xFF)).length := ⟨_, rfl⟩
  obtain ⟨hfull, hopen⟩ := s.firstOpenByte_spec hindex
  obtain ⟨hones, hclear⟩ := lowestClear_spec (s.byte index)
  obtain ⟨hlt, hbit⟩ := hclear hopen
  have hget : s.get (index * 8 + lowestClear (s.byte index)) = false := by
    rw [get_add s index hlt, hbit]
  -- below the hint the bitset is valid, up to the byte all bytes are full, in it `hones`
  have hset : ∀ j < index * 8 + lowestClear (s.byte index), s.get j = true := by
    intro j hj
    have hmod := Nat.mod_lt j (show 8 > 0 by decide)
    by_cases hhint : j < s.hint
    · exact h.get_of_lt j hhint
    rw [get]
    rcases Nat.lt_or_ge (j / 8) index with hbefore | hwithin
    · rw [hfull (j / 8) hbefore (by omega), testBit_ones hmod]
    · rw [show j / 8 = index by omega]
      exact hones _ (by omega)
  have hsearch : s.firstClear? = if index * 8 + lowestClear (s.byte index) < s.max then
      some (index * 8 + lowestClear (s.byte index)) else none := by rw [hindex]; rfl
  rw [hsearch]
  by_cases hmax : index * 8 + lowestClear (s.byte index) < s.max
  · rw [if_pos hmax]
    exact ⟨hmax, hget, hset⟩
  · rw [if_neg hmax]
    exact fun j hj => hset j (by omega)

end PagedMap.Bitset
