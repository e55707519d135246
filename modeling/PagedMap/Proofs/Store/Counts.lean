/-
# Bitsets that are written and read

A bitset counts its set bits (`Bitset.Counted`), and its bytes tell all of it but the hint:
read from its own bytes a bitset has the same bits and the same count
(`Bitset.ofBytes_toBytes`). A bit that changes changes one byte (`Bitset.toBytes_eq_set`).

Key definition: `Bitset.Counted`.
Key theorems: `Bitset.Counted.set`, `Bitset.Counted.clear`, `Bitset.of_ofBytes`,
`Bitset.ofBytes_toBytes`, `Bitset.toBytes_eq_set`.
-/
import PagedMap.Proofs.Store.Bits

namespace PagedMap

/-- A byte of a string that was cut or filled up with zeros. -/
theorem Bytes.getD_fit (n : Nat) (bs : Bytes) (j : Nat) :
    (fit n bs).getD j 0 = if j < n then bs.getD j 0 else 0 := by
  simp only [fit, List.getD_eq_getElem?_getD, List.getElem?_append, List.length_take,
    List.getElem?_take, List.getElem?_replicate]
  by_cases hn : j < n
  · by_cases hj : j < bs.length
    · rw [if_pos (by omega), if_pos hn, if_pos hn]
    · rw [if_neg (by omega), if_pos hn, List.getElem?_eq_none (Nat.not_lt.1 hj)]
      split <;> rfl
  · rw [if_neg (by omega), if_neg hn, if_neg (by omega)]
    rfl

namespace Bitset

variable {s s' : Bitset} {bs : Bytes} {i j k max n : Nat}

/-! ### Counting -/

/-- The count is the number of set bits. -/
def Counted (s : Bitset) : Prop := s.count = (List.range s.max).countP s.get

theorem counted_empty (max : Nat) : (empty max).Counted :=
  (List.countP_eq_zero.2 fun i _ => by rw [get_empty]; exact Bool.false_ne_true).symm

/-- One more number below a bound has a property. -/
theorem countP_range_succ {p q : Nat → Bool} (hp : p i = false) (hq : q i = true)
    (hrest : ∀ j ≠ i, q j = p j) : ∀ {n : Nat}, i < n →
    (List.range n).countP q = (List.range n).countP p + 1
  | n + 1, hi => by
    rw [List.range_succ, List.countP_append, List.countP_append, List.countP_singleton,
      List.countP_singleton]
    by_cases hin : i = n
    · subst hin
      have hbelow : (List.range i).countP q = (List.range i).countP p :=
        List.countP_congr fun j hj => by rw [hrest j (Nat.ne_of_lt (List.mem_range.1 hj))]
      rw [hbelow, hp, hq]
      rfl
    · have ih := countP_range_succ hp hq hrest (show i < n by omega)
      rw [ih, hrest n (Ne.symm hin)]
      omega

theorem Counted.set (h : s.Counted) (hi : i < s.max) : (s.set i).Counted := by
  have hcount : (s.set i).count = if s.get i then s.count else s.count + 1 := by
    rw [Bitset.set]
    split <;> rfl
  have hrest : ∀ j ≠ i, (s.set i).get j = s.get j := fun j hj => by
    rw [get_set, decide_eq_false hj, Bool.or_false]
  have hself : (s.set i).get i = true := by rw [get_set, decide_eq_true rfl, Bool.or_true]
  rw [Counted, max_set, hcount]
  cases hget : s.get i with
  | false =>
    rw [countP_range_succ hget hself hrest hi, ← h]
    rfl
  | true =>
    have hsame : (s.set i).get = s.get := by
      funext j
      by_cases hj : j = i
      · rw [hj, hself, hget]
      · exact hrest j hj
    rw [hsame, ← h]
    rfl

theorem Counted.clear (h : s.Counted) (hs : s.Valid) (i : Nat) : (s.clear i).Counted := by
  have hcount : (s.clear i).count = if s.get i then s.count - 1 else s.count := by
    rw [Bitset.clear]
    split <;> rfl
  have hrest : ∀ j ≠ i, (s.clear i).get j = s.get j := fun j hj => by
    rw [get_clear, decide_eq_false hj, Bool.not_false, Bool.and_true]
  have hself : (s.clear i).get i = false := by
    rw [get_clear, decide_eq_true rfl, Bool.not_true, Bool.and_false]
  rw [Counted, max_clear, hcount]
  cases hget : s.get i with
  | false =>
    have hsame : (s.clear i).get = s.get := by
      funext j
      by_cases hj : j = i
      · rw [hj, hself, hget]
      · exact hrest j hj
    rw [hsame, ← h]
    rfl
  | true =>
    have hcounted := countP_range_succ hself hget (fun j hj => (hrest j hj).symm) (hs.lt_max i hget)
    rw [← h] at hcounted
    rw [if_pos rfl]
    omega

/-! ### The bytes of a bitset -/

theorem byte_eq_zero (h : s.bytes.length ≤ j) : s.byte j = 0 := by
  rw [byte, List.getD_eq_getElem?_getD, List.getElem?_eq_none h]
  rfl

theorem get_of_length_le (h : s.bytes.length ≤ i / 8) : s.get i = false := by
  rw [get, byte_eq_zero h]
  simp [testBit]

/-- The bits of all bytes are counted byte by byte. -/
theorem countP_ones : ∀ (bs : Bytes), (List.range (8 * bs.length)).countP
    (fun i => testBit (bs.getD (i / 8) 0) (i % 8)) = bs.foldr (fun b n => ones b + n) 0
  | [] => rfl
  | b :: bs => by
    have hfirst : (List.range 8).countP (fun i => testBit ((b :: bs).getD (i / 8) 0) (i % 8)) =
        ones b := List.countP_congr fun i hi => by
      rw [List.mem_range] at hi
      rw [Nat.div_eq_of_lt hi, Nat.mod_eq_of_lt hi]
      rfl
    have hrest : ∀ i, testBit ((b :: bs).getD ((8 + i) / 8) 0) ((8 + i) % 8) =
        testBit (bs.getD (i / 8) 0) (i % 8) := fun i => by
      rw [Nat.add_div_left i (by decide), Nat.add_mod_left, List.getD_cons_succ]
    rw [List.length_cons, Nat.mul_succ, Nat.add_comm, List.range_add, List.countP_append, hfirst,
      List.countP_map, List.foldr_cons, ← countP_ones bs]
    exact congrArg _ (List.countP_congr fun i _ => by rw [Function.comp_apply, hrest])

theorem le_byteLength (max : Nat) : max ≤ 8 * byteLength max := by
  rw [byteLength]
  omega

/-- A bitset that was read has the bytes it was read from, counts its bits and has none
behind its end. -/
theorem of_ofBytes (h : ofBytes bs max = .ok s) :
    s.max = max ∧ s.toBytes = bs ∧ s.Valid ∧ s.Counted := by
  rw [ofBytes] at h
  split at h
  · cases h
  · next hlen =>
    rw [Decidable.not_not] at hlen
    split at h
    · cases h
    · next htail =>
      obtain rfl := Except.ok.inj h
      rw [Bool.not_eq_true, List.any_eq_false] at htail
      have hle := le_byteLength max
      have hnone : ∀ i, max ≤ i →
          get ⟨bs, max, bs.foldr (fun b n => ones b + n) 0, 0⟩ i = false := by
        intro i hi
        by_cases hlt : i < bs.length * 8
        · have hmem : i ∈ List.range' max (bs.length * 8 - max) :=
            List.mem_range'_1.2 ⟨hi, by omega⟩
          simpa using htail i hmem
        · exact get_of_length_le (by dsimp only; omega)
      refine ⟨rfl, ?_, ⟨fun i hi => (by cases hi), fun i hi => ?_⟩, ?_⟩
      · rw [toBytes, Bytes.fit_eq (Nat.le_of_eq hlen), hlen, Nat.sub_self, List.replicate_zero,
          List.append_nil]
      · by_contra hmax
        rw [hnone i (Nat.not_lt.1 hmax)] at hi
        cases hi
      · have hall := countP_ones bs
        rw [hlen, show 8 * byteLength max = max + (8 * byteLength max - max) by omega,
          List.range_add, List.countP_append] at hall
        have hzero : ((List.range (8 * byteLength max - max)).map (max + ·)).countP
            (fun i => testBit (bs.getD (i / 8) 0) (i % 8)) = 0 := by
          refine List.countP_eq_zero.2 fun i hi => ?_
          obtain ⟨j, -, rfl⟩ := List.mem_map.1 hi
          exact Bool.eq_false_iff.1 (hnone (max + j) (Nat.le_add_right ..))
        rw [hzero, Nat.add_zero] at hall
        exact hall.symm

/-- The bytes of a bitset tell its bits. -/
theorem get_eq_toBytes (h : s.Valid) (i : Nat) :
    s.get i = testBit (s.toBytes.getD (i / 8) 0) (i % 8) := by
  rw [toBytes, Bytes.getD_fit]
  by_cases hi : i / 8 < byteLength s.max
  · rw [if_pos hi]
    rfl
  · have hclear : s.get i = false := by
      refine Bool.eq_false_iff.2 fun hset => hi ?_
      have := h.lt_max i hset
      rw [byteLength]
      omega
    rw [if_neg hi, hclear]
    simp [testBit]

/-- A bitset is read back from its own bytes. -/
theorem ofBytes_toBytes (h : s.Valid) :
    ∃ s', ofBytes s.toBytes s.max = .ok s' ∧ ∀ i, s'.get i = s.get i := by
  obtain ⟨s', hs'⟩ : ∃ s' : Bitset, s' =
    ⟨s.toBytes, s.max, s.toBytes.foldr (fun b n => ones b + n) 0, 0⟩ := ⟨_, rfl⟩
  have hget : ∀ i, s'.get i = s.get i := by
    intro i
    rw [get_eq_toBytes h, hs']
    rfl
  refine ⟨s', ?_, hget⟩
  have htail : (List.range' s.max (s.toBytes.length * 8 - s.max)).any s'.get = false := by
    refine List.any_eq_false.2 fun i hi hset => ?_
    have := h.lt_max i (hget i ▸ hset)
    have := (List.mem_range'_1.1 hi).1
    omega
  rw [ofBytes]
  rw [if_neg (by rw [toBytes, Bytes.length_fit]; exact fun hne => hne rfl), ← hs', htail,
    if_neg Bool.false_ne_true]

/-- If one byte of a bitset is different, one of its bytes is replaced. -/
theorem toBytes_eq_set (hmax : s'.max = s.max) (hrest : ∀ j ≠ k, s'.byte j = s.byte j) :
    s'.toBytes = s.toBytes.set k (s'.byte k) := by
  have hget : ∀ (s : Bitset) {j : Nat} (hj : j < s.toBytes.length), s.toBytes[j] = s.byte j := by
    intro s j hj
    have hfit := Bytes.getD_fit (byteLength s.max) s.bytes j
    rw [if_pos (by rwa [toBytes, Bytes.length_fit] at hj)] at hfit
    rw [← List.getD_eq_getElem _ 0 hj]
    exact hfit
  refine List.ext_getElem (by simp only [toBytes, Bytes.length_fit, List.length_set, hmax]) ?_
  intro j hj hj'
  rw [List.getElem_set, hget s' hj]
  split
  · next hkj => rw [hkj]
  · next hkj => rw [hget, hrest j (Ne.symm hkj)]

theorem byte_set (h : j ≠ i / 8) : (s.set i).byte j = s.byte j := by
  rw [set]
  split
  · rfl
  · exact (byte_setByte ..).trans (if_neg h)

theorem byte_clear (h : j ≠ i / 8) : (s.clear i).byte j = s.byte j := by
  rw [clear]
  split
  · exact (byte_setByte ..).trans (if_neg h)
  · rfl

end Bitset

end PagedMap
