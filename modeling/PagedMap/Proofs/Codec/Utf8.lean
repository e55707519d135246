/-
# The bytes of a text are in the order of its characters

A text is written character by character (`toUtf8_eq`). Of two characters the
one with the lower code point has the lower encoding, whatever follows
(`compare_encodeChar_append`), so texts are in the order of their code points
(`compare_toUtf8`). Completing the last character of a beginning of a text gives
the beginning of the text at a character (`wholeCharacters_toUtf8`).

Key theorems: `Text.compare_toUtf8`, `Text.wholeCharacters_toUtf8`.
-/
import Mathlib.Algebra.Order.Ring.Int
import PagedMap.Codec.Counted

namespace PagedMap.Text

open String (utf8EncodeChar)

/-- The bytes of a text are the bytes of its characters. -/
theorem toUtf8_eq (s : String) : toUtf8 s = s.toList.flatMap utf8EncodeChar := by
  have h : s.toByteArray = (s.toList.flatMap utf8EncodeChar).toByteArray :=
    String.utf8Encode_toList.symm
  rw [toUtf8, String.toUTF8_eq_toByteArray, h, List.data_toByteArray]

theorem toUtf8_ofList (cs : List Char) :
    toUtf8 (String.ofList cs) = cs.flatMap utf8EncodeChar := by
  rw [toUtf8_eq, String.toList_ofList]

theorem length_toUtf8 (s : String) : (toUtf8 s).length = s.utf8ByteSize := by
  simp [toUtf8]

/-! ### The order of characters -/

theorem compare_bytes_lt {a b : Nat} (h : a < b) (hb : b < 256) (as bs : Bytes) :
    Ord.compare (UInt8.ofNat a :: as) (UInt8.ofNat b :: bs) = .lt := by
  have hlt : UInt8.ofNat a < UInt8.ofNat b := by
    rw [UInt8.lt_iff_toNat_lt, UInt8.toNat_ofNat', UInt8.toNat_ofNat']
    omega
  rw [List.compare_cons_cons, show Ord.compare (UInt8.ofNat a) (UInt8.ofNat b) = .lt by
    simp only [Ord.compare, compareOfLessAndEq, if_pos hlt]]
  rfl

@[simp]
theorem compare_same_cons (b : UInt8) (as bs : Bytes) :
    Ord.compare (b :: as) (b :: bs) = Ord.compare as bs := by
  rw [List.compare_cons_cons, Std.ReflOrd.compare_self]
  rfl

theorem compare_same_append : ∀ (bs as cs : Bytes),
    Ord.compare (bs ++ as) (bs ++ cs) = Ord.compare as cs
  | [], _, _ => rfl
  | b :: bs, as, cs => by
    rw [List.cons_append, List.cons_append, compare_same_cons, compare_same_append bs]

/-- One step of comparing digits: the first that differs decides. -/
theorem compare_digit {a b : Nat} (h : a ≤ b) (hb : b < 256) {as bs : Bytes}
    (heq : a = b → Ord.compare as bs = .lt) :
    Ord.compare (UInt8.ofNat a :: as) (UInt8.ofNat b :: bs) = .lt := by
  rcases Nat.lt_or_eq_of_le h with h | rfl
  · exact compare_bytes_lt h hb as bs
  · rw [compare_same_cons, heq rfl]

/-- A lower code point has the lower encoding. -/
theorem compare_encodeChar_append {c d : Char} (h : c.toNat < d.toNat) (as bs : Bytes) :
    Ord.compare (utf8EncodeChar c ++ as) (utf8EncodeChar d ++ bs) = .lt := by
  have hv : c.val.toNat < d.val.toNat := h
  have hd : d.val.toNat < 0x110000 := by
    have := d.valid
    rcases this with h | h
    · exact Nat.lt_trans h (by decide)
    · exact h.2
  simp only [utf8EncodeChar]
  -- a longer encoding begins with a higher byte; of equally long ones the first
  -- digit that differs decides
  split <;> split <;> (try split) <;> (try split) <;> (try split) <;> (try split) <;>
    simp only [List.cons_append, List.nil_append]
  all_goals first
    | omega
    | exact compare_bytes_lt (by omega) (by omega) _ _
    | exact compare_digit (by omega) (by omega) fun _ =>
        compare_bytes_lt (by omega) (by omega) _ _
    | exact compare_digit (by omega) (by omega) fun _ =>
        compare_digit (by omega) (by omega) fun _ => compare_bytes_lt (by omega) (by omega) _ _
    | exact compare_digit (by omega) (by omega) fun _ =>
        compare_digit (by omega) (by omega) fun _ =>
          compare_digit (by omega) (by omega) fun _ =>
            compare_bytes_lt (by omega) (by omega) _ _

/-- Encodings are in the order of the code points. -/
theorem compare_flatMap_encodeChar : ∀ (cs ds : List Char),
    Ord.compare (cs.flatMap utf8EncodeChar) (ds.flatMap utf8EncodeChar) =
      Ord.compare (cs.map Char.toNat) (ds.map Char.toNat)
  | [], [] => rfl
  | [], d :: ds => by
    cases h : utf8EncodeChar d with
    | nil => exact absurd h String.utf8EncodeChar_ne_nil
    | cons b bs => rw [List.flatMap_cons, h]; rfl
  | c :: cs, [] => by
    cases h : utf8EncodeChar c with
    | nil => exact absurd h String.utf8EncodeChar_ne_nil
    | cons b bs => rw [List.flatMap_cons, h]; rfl
  | c :: cs, d :: ds => by
    rw [List.flatMap_cons, List.flatMap_cons, List.map_cons, List.map_cons, List.compare_cons_cons]
    rcases Nat.lt_trichotomy c.toNat d.toNat with h | h | h
    · rw [compare_encodeChar_append h, Nat.compare_eq_lt.2 h]
      rfl
    · obtain rfl : c = d := Char.toNat_inj.1 h
      rw [compare_same_append, compare_flatMap_encodeChar cs ds, Nat.compare_eq_eq.2 rfl]
      rfl
    · rw [Std.OrientedOrd.eq_swap, compare_encodeChar_append h, Nat.compare_eq_gt.2 h]
      rfl

/-- Texts are in the order of their code points. -/
theorem compare_toUtf8 (x y : String) :
    Ord.compare (toUtf8 x) (toUtf8 y) =
      Ord.compare (x.toList.map Char.toNat) (y.toList.map Char.toNat) := by
  rw [toUtf8_eq, toUtf8_eq, compare_flatMap_encodeChar]

/-! ### Beginnings of texts -/

open Counted (isInner wholeCharacters)

/-- The first byte of a character is not an inner one, the others are. -/
theorem encodeChar_cases (c : Char) : ∃ b bs, utf8EncodeChar c = b :: bs ∧ isInner b = false ∧
    ∀ x ∈ bs, isInner x = true := by
  have inner : ∀ v, v < 64 → isInner (UInt8.ofNat (v + 0x80)) = true := by
    intro v hv
    rw [isInner, Bool.and_eq_true, decide_eq_true_iff, decide_eq_true_iff, UInt8.le_iff_toNat_le,
      UInt8.lt_iff_toNat_lt, UInt8.toNat_ofNat']
    change 128 ≤ _ ∧ _ < 192
    omega
  have outer : ∀ v, v < 128 ∨ 192 ≤ v → v < 256 → isInner (UInt8.ofNat v) = false := by
    intro v hv hlt
    rw [isInner, Bool.and_eq_false_iff, decide_eq_false_iff_not, decide_eq_false_iff_not,
      UInt8.le_iff_toNat_le, UInt8.lt_iff_toNat_lt, UInt8.toNat_ofNat']
    change ¬ 128 ≤ _ ∨ ¬ _ < 192
    omega
  simp only [utf8EncodeChar]
  split
  · exact ⟨_, _, rfl, outer _ (by omega) (by omega), by simp⟩
  split
  · refine ⟨_, _, rfl, outer _ (by omega) (by omega), ?_⟩
    simp only [List.mem_singleton, forall_eq]
    exact inner _ (by omega)
  split
  · refine ⟨_, _, rfl, outer _ (by omega) (by omega), ?_⟩
    simp only [List.mem_cons, List.not_mem_nil, or_false, forall_eq_or_imp, forall_eq]
    exact ⟨inner _ (by omega), inner _ (by omega)⟩
  · refine ⟨_, _, rfl, outer _ (by omega) (by omega), ?_⟩
    simp only [List.mem_cons, List.not_mem_nil, or_false, forall_eq_or_imp, forall_eq]
    exact ⟨inner _ (by omega), inner _ (by omega), inner _ (by omega)⟩

/-- A text does not begin inside a character. -/
theorem takeWhile_inner_flatMap : ∀ cs : List Char,
    (cs.flatMap utf8EncodeChar).takeWhile isInner = []
  | [] => rfl
  | c :: cs => by
    obtain ⟨b, bs, h, hb, -⟩ := encodeChar_cases c
    rw [List.flatMap_cons, h, List.cons_append, List.takeWhile_cons_of_neg (by simp [hb])]

/-- A beginning of a text, completed to whole characters, is the text of some
of the first characters. -/
theorem wholeCharacters_flatMap : ∀ (n : Nat) (cs : List Char), ∃ k,
    wholeCharacters n (cs.flatMap utf8EncodeChar) = (cs.take k).flatMap utf8EncodeChar
  | n, [] => ⟨0, by simp [wholeCharacters]⟩
  | 0, c :: cs => ⟨0, by
    rw [wholeCharacters, List.take_zero, List.drop_zero, takeWhile_inner_flatMap]
    rfl⟩
  | n + 1, c :: cs => by
    obtain ⟨b, bs, h, -, hbs⟩ := encodeChar_cases c
    rw [List.flatMap_cons, h]
    rcases Nat.lt_or_ge n bs.length with hn | hn
    · -- the cut is inside the first character
      refine ⟨1, ?_⟩
      have hinner : ∀ x ∈ bs.drop n, isInner x = true := fun x hx => hbs x (List.mem_of_mem_drop hx)
      rw [wholeCharacters, List.cons_append, List.take_succ_cons, List.drop_succ_cons,
        List.take_append_of_le_length (Nat.le_of_lt hn),
        List.drop_append_of_le_length (Nat.le_of_lt hn), List.takeWhile_append_of_pos hinner,
        takeWhile_inner_flatMap, List.append_nil, List.cons_append, List.take_append_drop]
      simp [h]
    · obtain ⟨k, hk⟩ := wholeCharacters_flatMap (n - bs.length) cs
      refine ⟨k + 1, ?_⟩
      rw [wholeCharacters] at hk
      rw [wholeCharacters, List.cons_append, List.take_succ_cons, List.drop_succ_cons,
        List.take_append, List.drop_append, List.take_of_length_le hn,
        List.drop_eq_nil_of_le hn, List.nil_append, List.take_succ_cons, List.flatMap_cons, h, ← hk]
      simp
  termination_by _ cs => cs.length

/-- A beginning of a text, completed to whole characters, is a text. -/
theorem wholeCharacters_toUtf8 (n : Nat) (s : String) :
    ∃ z : String, wholeCharacters n (toUtf8 s) = toUtf8 z := by
  obtain ⟨k, hk⟩ := wholeCharacters_flatMap n s.toList
  exact ⟨String.ofList (s.toList.take k), by rw [toUtf8_ofList, toUtf8_eq, hk]⟩

end PagedMap.Text
