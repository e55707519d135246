/-
# Encoded keys are in the order of the keys

Two encoded keys are compared without decoding them by every codec but `littleWord`, and the
answer is the order of the keys, whatever follows either of them (`KeyKind.compareBytes?_append`).
That order is the one of the numbers that keys are made of (`KeyKind.points`): integers are in
the order of the integers, byte strings and texts in the lexicographic one of their bytes and
code points.

Key definition: `KeyKind.points`.
Key theorems: `KeyKind.compare_eq_points`, `KeyKind.compareEncoded_encode`.
-/
import PagedMap.Proofs.Codec.Delimited

namespace PagedMap

/-- Comparing two lists of integers tells which one is lexicographically before the other. -/
theorem compare_lists_eq_lt : ∀ {as bs : List Int}, Ord.compare as bs = .lt ↔ as < bs
  | [], [] => by simp
  | [], _ :: _ => by simp
  | _ :: _, [] => by simp
  | a :: as, b :: bs => by
    rw [List.compare_cons_cons, Ordering.then_eq_lt, List.cons_lt_cons_iff, compare_lt_iff_lt,
      compare_eq_iff_eq, compare_lists_eq_lt]

/-- Mapping keys to integers in their order leaves lists of them in their order. -/
theorem compare_map_of_compare {α : Type} [Ord α] {f : α → Int}
    (hf : ∀ a b, Ord.compare (f a) (f b) = Ord.compare a b) :
    ∀ as bs : List α, Ord.compare (as.map f) (bs.map f) = Ord.compare as bs
  | [], [] => rfl
  | [], _ :: _ => rfl
  | _ :: _, [] => rfl
  | a :: as, b :: bs => by
    rw [List.map_cons, List.map_cons, List.compare_cons_cons, List.compare_cons_cons, hf,
      compare_map_of_compare hf as bs]

namespace KeyKind

/-- The numbers that a key is made of, the first counting most: an integer is one, a byte string
has one for each byte and a text one for each code point. -/
def points : (k : KeyKind) → k.Item → List Int
  | word32, x | littleWord, x => [(UInt32.toNat x : Int)]
  | word64, x => [(UInt64.toNat x : Int)]
  | int32, x => [Int32.toInt x]
  | int64, x => [Int64.toInt x]
  | byteString, x => List.map (fun b : UInt8 => (b.toNat : Int)) x
  | text, x => (String.toList x).map fun c => (c.toNat : Int)

/-- Keys are in the order of their numbers. -/
theorem compare_eq_points : ∀ {k : KeyKind} (a b : k.Item),
    k.codec.compare a b = Ord.compare (k.points a) (k.points b)
  | word32, a, b | word64, a, b | int32, a, b | int64, a, b => by
    simp only [points, List.compare_cons_cons, List.compare_nil_nil, Ordering.then_eq]
    rfl
  | littleWord, a, b => by
    simp only [points, List.compare_cons_cons, List.compare_nil_nil, Ordering.then_eq]
    exact (compare_int_nat _ _).symm
  | byteString, a, b =>
    (compare_map_of_compare (fun _ _ => (compare_int_nat _ _).trans (Bytes.compare_uint8 _ _).symm)
      a b).symm
  | text, a, b => by
    have hcast (s : KeyKind.text.Item) :
        KeyKind.text.points s = ((String.toList s).map Char.toNat).map (Nat.cast : Nat → Int) :=
      (List.map_map ..).symm
    rw [hcast, hcast, compare_map_of_compare compare_int_nat]
    rfl

/-- The order of encoded keys is told from their bytes, whatever follows them. -/
theorem compareBytes?_append : ∀ {k : KeyKind}, k ≠ .littleWord → ∀ {a b : k.Item} {x y : Bytes},
    k.codec.encode a = .ok x → k.codec.encode b = .ok y → ∀ t u,
      k.codec.compareBytes? (x ++ t) (y ++ u) = some (k.codec.compare a b)
  | word32, _, a, b, _, _, rfl, rfl, t, u =>
    WordType.compareBytes?_append (T := WordType.uint32) a b t u
  | word64, _, a, b, _, _, rfl, rfl, t, u =>
    WordType.compareBytes?_append (T := WordType.uint64) a b t u
  | int32, _, a, b, _, _, rfl, rfl, t, u =>
    WordType.compareBytes?_append (T := WordType.sint32) a b t u
  | int64, _, a, b, _, _, rfl, rfl, t, u =>
    WordType.compareBytes?_append (T := WordType.sint64) a b t u
  | byteString, _, _, _, _, _, ha, hb, t, u => Counted.compareBytes?_append ha hb t u
  | text, _, a, b, _, _, ha, hb, t, u =>
    (Counted.compareBytes?_append ha hb t u).trans (congrArg some (Text.compare_toUtf8 a b))
  | littleWord, h, _, _, _, _, _, _, _, _ => (h rfl).elim

/-- **The order of keys survives encoding.** Two keys whose bytes can be counted have encodings
from whose bytes, whatever follows them, their order is told: by all codecs but `littleWord`
without decoding them, and by that one with it. The order is the one of the numbers that the
keys are made of, and only a key itself is equal to it. -/
theorem compareEncoded_encode {k : KeyKind} {a b : k.Item} (ha : (k.body a).length < UInt32.size)
    (hb : (k.body b).length < UInt32.size) :
    ∃ x y, k.codec.encode a = .ok x ∧ k.codec.encode b = .ok y ∧
      (∀ t u, (k ≠ .littleWord →
          k.codec.compareBytes? (x ++ t) (y ++ u) = some (k.codec.compare a b)) ∧
        (k = .littleWord → k.codec.compareBytes? (x ++ t) (y ++ u) = none) ∧
        k.codec.compareEncoded (x ++ t) (y ++ u) = .ok (k.codec.compare a b)) ∧
      (k.codec.compare a b = .lt ↔ k.points a < k.points b) ∧
      (k.codec.compare a b = .gt ↔ k.points b < k.points a) ∧
      (k.codec.compare a b = .eq ↔ a = b) := by
  obtain ⟨x, hx, -⟩ := exists_encode ha
  obtain ⟨y, hy, -⟩ := exists_encode hb
  refine ⟨x, y, hx, hy, fun t u => ⟨fun hk => compareBytes?_append hk hx hy t u, ?_, ?_⟩, ?_, ?_,
    Std.LawfulEqCmp.compare_eq_iff_eq⟩
  · rintro rfl
    rfl
  · exact OrderedCodec.compareEncoded_append hx hy t u
  · rw [compare_eq_points, compare_lists_eq_lt]
  · have hgt : k.codec.compare a b = .gt ↔ k.codec.compare b a = .lt := Std.OrientedCmp.gt_iff_lt
    rw [hgt, compare_eq_points, compare_lists_eq_lt]

/-- The least signed integer is below the greatest, though its bytes as an unsigned one are not,
and two texts of two and four bytes are in the order of their only code points. -/
theorem compareEncoded_encode_extremes :
    (∃ x y, int64.codec.encode Int64.minValue = .ok x ∧ int64.codec.encode Int64.maxValue = .ok y ∧
      int64.codec.compareBytes? (x ++ [7]) (y ++ []) = some .lt) ∧
    ∃ x y, text.codec.encode "é" = .ok x ∧ text.codec.encode "𝄞" = .ok y ∧
      text.codec.compareEncoded (x ++ [0xFF]) (y ++ [0]) = .ok .lt := by
  obtain ⟨x, y, hx, hy, hxy, -⟩ := compareEncoded_encode (k := int64) (a := Int64.minValue)
    (b := Int64.maxValue) (by decide) (by decide)
  obtain ⟨z, w, hz, hw, hzw, -⟩ := compareEncoded_encode (k := text) (a := "é") (b := "𝄞")
    (by decide +kernel) (by decide +kernel)
  refine ⟨⟨x, y, hx, hy, ((hxy [7] []).1 (by decide)).trans ?_⟩,
    z, w, hz, hw, (hzw [0xFF] [0]).2.2.trans ?_⟩
  · exact congrArg some (by decide +kernel)
  · exact congrArg Except.ok (by decide +kernel)

end KeyKind

end PagedMap
