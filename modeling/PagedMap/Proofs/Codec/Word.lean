/-
# The integer codecs keep their promises

Digit strings of one length are in the order of their numbers
(`Bytes.compare_ofNat`), so the codec of a lawful type of integers is lawful
(`WordType.codec_lawful`). `littleWord` is lawful because it decodes what it
compares.

Key definition: `WordType.Lawful`.
Key theorems: `Bytes.compare_ofNat`, `WordType.codec_lawful`, `littleWord_lawful`.
-/
import PagedMap.Codec.Word
import PagedMap.Proofs.Codec.Digits
import PagedMap.Proofs.Codec.Lawful

namespace PagedMap

namespace Bytes

/-- Of strings of one length the last byte decides if the bytes before are the
same. -/
theorem compare_concat : ∀ {as bs : Bytes} (a b : UInt8), as.length = bs.length →
    Ord.compare (as ++ [a]) (bs ++ [b]) = (Ord.compare as bs).then (Ord.compare a b)
  | [], [], a, b, _ => by
    rw [List.nil_append, List.nil_append, List.compare_cons_cons, List.compare_nil_nil]
    cases Ord.compare a b <;> rfl
  | x :: as, y :: bs, a, b, h => by
    have ih := compare_concat a b (Nat.succ.inj h)
    rw [List.cons_append, List.cons_append, List.compare_cons_cons, List.compare_cons_cons, ih]
    cases Ord.compare x y <;> rfl
  | [], _ :: _, _, _, h => by simp at h
  | _ :: _, [], _, _, h => by simp at h

theorem compare_uint8 (a b : UInt8) : Ord.compare a b = Ord.compare a.toNat b.toNat := by
  simp only [Ord.compare, compareOfLessAndEq, UInt8.lt_iff_toNat_lt, ← UInt8.toNat_inj]

/-- Digit strings of one length are in the order of their numbers. -/
theorem compare_ofNat : ∀ {n v w : Nat}, v < 256 ^ n → w < 256 ^ n →
    Ord.compare (ofNat n v) (ofNat n w) = Ord.compare v w
  | 0, v, w, hv, hw => by
    obtain rfl : v = 0 := by simpa using hv
    obtain rfl : w = 0 := by simpa using hw
    rfl
  | n + 1, v, w, hv, hw => by
    have hv' : v / 256 < 256 ^ n := by rw [Nat.pow_succ] at hv; omega
    have hw' : w / 256 < 256 ^ n := by rw [Nat.pow_succ] at hw; omega
    rw [ofNat, ofNat, compare_concat _ _ (by simp), compare_ofNat hv' hw', compare_uint8]
    have ev : (UInt8.ofNat v).toNat = v % 256 := UInt8.toNat_ofNat' ..
    have ew : (UInt8.ofNat w).toNat = w % 256 := UInt8.toNat_ofNat' ..
    rw [ev, ew]
    rcases Nat.lt_trichotomy v w with h | h | h
    · rw [Nat.compare_eq_lt.2 h]
      rcases Nat.lt_or_ge (v / 256) (w / 256) with h1 | h1
      · rw [Nat.compare_eq_lt.2 h1]; rfl
      · rw [Nat.compare_eq_eq.2 (show v / 256 = w / 256 by omega),
          Nat.compare_eq_lt.2 (show v % 256 < w % 256 by omega)]
        rfl
    · subst h
      rw [Nat.compare_eq_eq.2 rfl, Nat.compare_eq_eq.2 rfl, Nat.compare_eq_eq.2 rfl]
      rfl
    · rw [Nat.compare_eq_gt.2 h]
      rcases Nat.lt_or_ge (w / 256) (v / 256) with h1 | h1
      · rw [Nat.compare_eq_gt.2 h1]; rfl
      · rw [Nat.compare_eq_eq.2 (show v / 256 = w / 256 by omega),
          Nat.compare_eq_gt.2 (show w % 256 < v % 256 by omega)]
        rfl

end Bytes

namespace WordType

variable {α : Type} {T : WordType α}

/-- The ranks fit into the width, tell the integers apart and are in their
order. -/
class Lawful (T : WordType α) : Prop where
  width_pos : 0 < T.width
  rank_lt : ∀ x, T.rank x < 256 ^ T.width
  ofRank_rank : ∀ x, T.ofRank (T.rank x) = x
  compare_value : ∀ x y, Ord.compare (T.value x) (T.value y) = Ord.compare (T.rank x) (T.rank y)

theorem digits_append (x : α) (rest : Bytes) :
    T.digits (Bytes.ofNat T.width (T.rank x) ++ rest) = .ok (Bytes.ofNat T.width (T.rank x)) := by
  rw [digits, Bytes.window?_append (Bytes.length_ofNat _ _)]

variable [T.Lawful]

theorem rank_inj {x y : α} (h : T.rank x = T.rank y) : x = y := by
  rw [← Lawful.ofRank_rank (T := T) x, h, Lawful.ofRank_rank]

instance codec_transCmp : Std.TransCmp T.codec.compare :=
  inferInstanceAs (Std.TransCmp (compareOn T.value))

instance codec_lawfulEqCmp : Std.LawfulEqCmp T.codec.compare where
  compare_self := Std.ReflOrd.compare_self
  eq_of_compare {x y} h := by
    have h' : Ord.compare (T.rank x) (T.rank y) = .eq := (Lawful.compare_value x y).symm.trans h
    exact rank_inj (Nat.compare_eq_eq.1 h')

/-- The digits of two integers are in the order of the integers. -/
theorem compareBytes?_append (x y : α) (t u : Bytes) :
    T.codec.compareBytes? (Bytes.ofNat T.width (T.rank x) ++ t)
      (Bytes.ofNat T.width (T.rank y) ++ u) = some (T.codec.compare x y) := by
  have hcmp : T.codec.compareBytes? (Bytes.ofNat T.width (T.rank x) ++ t)
      (Bytes.ofNat T.width (T.rank y) ++ u) =
      some (Ord.compare (Bytes.ofNat T.width (T.rank x)) (Bytes.ofNat T.width (T.rank y))) := by
    simp only [codec, Bytes.window?_append (Bytes.length_ofNat T.width _), Option.bind_eq_bind,
      Option.bind_some]
    rfl
  rw [hcmp, Bytes.compare_ofNat (Lawful.rank_lt x) (Lawful.rank_lt y), ← Lawful.compare_value]
  rfl

/-- The codec of a lawful type of integers is lawful. -/
theorem codec_lawful [LinearOrder α] (hord : ∀ x y, T.codec.compare x y = Ord.compare x y) :
    T.codec.Lawful where
  sizeAt_append := by
    rintro x _ ⟨⟩ rest
    change (T.digits _).map _ = _
    rw [digits_append]
    rfl
  decode_append := by
    rintro x _ ⟨⟩ rest
    change (T.digits _).map _ = _
    rw [digits_append]
    change Except.ok (T.ofRank _) = _
    rw [Bytes.toNat_ofNat_of_lt (Lawful.rank_lt x), Lawful.ofRank_rank]
  length_pos := by
    rintro x _ ⟨⟩
    simpa using Lawful.width_pos (T := T)
  length_of_fixed := by
    rintro x _ n ⟨⟩ ⟨⟩
    simp
  compare_eq := hord
  compareBytes?_append := by
    rintro x y _ _ o ⟨⟩ ⟨⟩ t u h
    rw [compareBytes?_append] at h
    rw [← Option.some.inj h, hord]
  separate_of_lt := by
    intro x y a b _ hy hxy
    exact ⟨y, b, rfl, hy, hxy, le_refl y, Nat.le_refl _⟩

end WordType

/-! ### The types of integers -/

/-- The integers of 32 bits. -/
abbrev WordType.uint32 : WordType UInt32 :=
  ⟨"U32Codec", 4, fun x => x.toNat, UInt32.toNat, UInt32.ofNat⟩

/-- The integers of 64 bits. -/
abbrev WordType.uint64 : WordType UInt64 :=
  ⟨"U64Codec", 8, fun x => x.toNat, UInt64.toNat, UInt64.ofNat⟩

/-- The signed integers of 32 bits. -/
abbrev WordType.sint32 : WordType Int32 :=
  ⟨"I32Codec", 4, Int32.toInt, fun x => (x.toInt - Int32.minValue.toInt).toNat,
    fun n => Int32.ofInt (n + Int32.minValue.toInt)⟩

/-- The signed integers of 64 bits. -/
abbrev WordType.sint64 : WordType Int64 :=
  ⟨"I64Codec", 8, Int64.toInt, fun x => (x.toInt - Int64.minValue.toInt).toNat,
    fun n => Int64.ofInt (n + Int64.minValue.toInt)⟩

theorem compare_int_nat (a b : Nat) : Ord.compare (a : Int) (b : Int) = Ord.compare a b := by
  simp only [Ord.compare, compareOfLessAndEq, Int.ofNat_lt, Int.ofNat_inj]

/-- Integers shifted to the natural numbers keep their order. -/
theorem compare_toNat_sub {a b c : Int} (ha : c ≤ a) (hb : c ≤ b) :
    Ord.compare a b = Ord.compare (a - c).toNat (b - c).toNat := by
  have hlt : a < b ↔ (a - c).toNat < (b - c).toNat := by omega
  have heq : a = b ↔ (a - c).toNat = (b - c).toNat := by omega
  simp only [Ord.compare, compareOfLessAndEq, hlt, heq]

instance : WordType.uint32.Lawful where
  width_pos := by decide
  rank_lt x := x.toNat_lt
  ofRank_rank x := UInt32.ofNat_toNat
  compare_value x y := compare_int_nat _ _

instance : WordType.uint64.Lawful where
  width_pos := by decide
  rank_lt x := x.toNat_lt
  ofRank_rank x := UInt64.ofNat_toNat
  compare_value x y := compare_int_nat _ _

instance : WordType.sint32.Lawful where
  width_pos := by decide
  rank_lt x := by
    have hmin : Int32.minValue.toInt = -0x80000000 := rfl
    have hlt := x.toInt_lt
    have hle := x.minValue_le_toInt
    change (x.toInt - Int32.minValue.toInt).toNat < 256 ^ 4
    omega
  ofRank_rank x := by
    have hle := x.minValue_le_toInt
    have hback : ((x.toInt - Int32.minValue.toInt).toNat : Int) + Int32.minValue.toInt =
        x.toInt := by omega
    exact (congrArg Int32.ofInt hback).trans (Int32.ofInt_toInt x)
  compare_value x y := compare_toNat_sub x.minValue_le_toInt y.minValue_le_toInt

instance : WordType.sint64.Lawful where
  width_pos := by decide
  rank_lt x := by
    have hmin : Int64.minValue.toInt = -0x8000000000000000 := rfl
    have hlt := x.toInt_lt
    have hle := x.minValue_le_toInt
    change (x.toInt - Int64.minValue.toInt).toNat < 256 ^ 8
    omega
  ofRank_rank x := by
    have hle := x.minValue_le_toInt
    have hback : ((x.toInt - Int64.minValue.toInt).toNat : Int) + Int64.minValue.toInt =
        x.toInt := by omega
    exact (congrArg Int64.ofInt hback).trans (Int64.ofInt_toInt x)
  compare_value x y := compare_toNat_sub x.minValue_le_toInt y.minValue_le_toInt

/-- Child numbers are read back. -/
instance : word32.toCodec.Lawful :=
  letI := linearOrderOf WordType.uint32.codec.compare
  (WordType.codec_lawful (T := WordType.uint32) fun _ _ => rfl).toLawful

theorem word32_writes (n : BlockNumber) : word32.Writes n := rfl

@[simp]
theorem word32_width (n : BlockNumber) : word32.width n = 4 := rfl

/-! ### Words with the least significant byte first -/

instance littleWord_transCmp : Std.TransCmp littleWord.compare :=
  inferInstanceAs (Std.TransCmp (compareOn UInt32.toNat))

instance littleWord_lawfulEqCmp : Std.LawfulEqCmp littleWord.compare where
  compare_self := Std.ReflOrd.compare_self
  eq_of_compare h := UInt32.toNat_inj.1 (Nat.compare_eq_eq.1 h)

/-- Turning four digits round twice gives the number back. -/
theorem littleWord_decode_append (x : UInt32) (rest : Bytes) :
    littleWord.decode (Bytes.ofNatLE 4 x.toNat ++ rest) = .ok x := by
  have hd : word32.decode (Bytes.ofNatLE 4 x.toNat ++ rest) =
      .ok (UInt32.ofNat (Bytes.ofNatLE 4 x.toNat).toNat) := by
    have hw : WordType.uint32.digits (Bytes.ofNatLE 4 x.toNat ++ rest) =
        .ok (Bytes.ofNatLE 4 x.toNat) := by
      rw [WordType.digits, Bytes.window?_append (Bytes.length_ofNatLE 4 _)]
    exact congrArg (Except.map fun ds => UInt32.ofNat ds.toNat) hw
  have hlt := Bytes.toNat_lt (Bytes.ofNatLE 4 x.toNat)
  rw [Bytes.length_ofNatLE] at hlt
  have hy : (UInt32.ofNat (Bytes.ofNatLE 4 x.toNat).toNat).toNat =
      (Bytes.ofNatLE 4 x.toNat).toNat :=
    UInt32.toNat_ofNat_of_lt hlt
  have hback := Bytes.ofNat_toNat (Bytes.ofNatLE 4 x.toNat)
  rw [Bytes.length_ofNatLE] at hback
  simp only [littleWord, hd, bind, Except.bind, pure, Except.pure, hy, hback, Bytes.toNatLE_ofNatLE]
  rw [Nat.mod_eq_of_lt (show x.toNat < 256 ^ 4 from x.toNat_lt), UInt32.ofNat_toNat]

theorem littleWord_lawful :
    letI := linearOrderOf littleWord.compare
    littleWord.Lawful :=
  letI := linearOrderOf littleWord.compare
  { sizeAt_append := by
      rintro x _ ⟨⟩ rest
      simp [littleWord]
    decode_append := by
      rintro x _ ⟨⟩ rest
      exact littleWord_decode_append x rest
    length_pos := by
      rintro x _ ⟨⟩
      simp
    length_of_fixed := by
      rintro x _ n h _
      cases h
    compare_eq := fun _ _ => rfl
    compareBytes?_append := by
      intro x y a b o _ _ t u h
      cases h
    separate_of_lt := by
      intro x y a b _ hy hxy
      exact ⟨y, b, rfl, hy, hxy, le_refl y, Nat.le_refl _⟩ }

end PagedMap
