/-
# Byte strings that were not written by the codec

A faithful codec takes for an encoding only what is one: a byte string in which it finds a
length, and which is so long, begins with the encoding of an item. Every digit string of
their width is an integer (`WordType.codec_faithful`) and all bytes that follow their number
are a byte string. Texts are not among them, since not all bytes are a text, and a codec that
finds the length does not look.

Key definitions: `Codec.Faithful`, `WordType.Full`.
Key theorems: `WordType.codec_faithful`, `byteString_faithful`, `KeyKind.codec_faithful`.
-/
import PagedMap.Proofs.Codec.Kinds

namespace PagedMap

/-- A codec that finds lengths of encodings only. -/
class Codec.Faithful {α : Type} (C : Codec α) : Prop where
  exists_encode : ∀ {bs : Bytes} {n : Nat}, C.sizeAt bs = .ok n → n ≤ bs.length →
    ∃ x, C.encode x = .ok (bs.take n)

namespace Codec.Faithful

variable {α : Type} {C : Codec α} [C.Faithful]

/-- The item whose encoding the bytes begin with. -/
theorem exists_bytes {bs : Bytes} {n : Nat} (h : C.sizeAt bs = .ok n) (hn : n ≤ bs.length) :
    ∃ x, C.Writes x ∧ bs.take n = C.bytes x := by
  obtain ⟨x, hx⟩ := Faithful.exists_encode h hn
  exact ⟨x, writes_of_encode hx, (bytes_of_encode hx).symm⟩

end Codec.Faithful

theorem Bytes.window?_eq_some {n : Nat} {bs ds : Bytes} (h : window? n bs = some ds) :
    ds.length = n ∧ ds = bs.take n := by
  rw [window?_eq] at h
  split at h
  · next hn =>
    obtain rfl := Option.some.inj h
    exact ⟨List.length_take_of_le hn, rfl⟩
  · cases h

/-! ### Integers -/

namespace WordType

variable {α : Type} {T : WordType α}

/-- Every number that fits into the width is a rank. -/
class Full (T : WordType α) : Prop where
  exists_rank : ∀ n < 256 ^ T.width, ∃ x, T.rank x = n

/-- Where all digit strings are integers, the codec is faithful. -/
theorem codec_faithful [T.Full] : T.codec.Faithful where
  exists_encode := by
    intro bs n h _
    change (T.digits bs).map List.length = _ at h
    rw [digits] at h
    split at h
    · next ds hds =>
      obtain ⟨hlen, htake⟩ := Bytes.window?_eq_some hds
      obtain rfl : ds.length = n := Except.ok.inj h
      obtain ⟨x, hx⟩ := Full.exists_rank (T := T) ds.toNat (hlen ▸ ds.toNat_lt)
      refine ⟨x, ?_⟩
      change Except.ok (Bytes.ofNat T.width (T.rank x)) = _
      rw [hx, hlen, Bytes.ofNat_toNat_of_length hlen, htake]
    · cases h

instance : WordType.uint32.Full where
  exists_rank n hn := ⟨UInt32.ofNat n, UInt32.toNat_ofNat_of_lt hn⟩

instance : WordType.uint64.Full where
  exists_rank n hn := ⟨UInt64.ofNat n, UInt64.toNat_ofNat_of_lt hn⟩

instance : WordType.sint32.Full where
  exists_rank n hn := by
    refine ⟨Int32.ofInt (n + Int32.minValue.toInt), ?_⟩
    have hmin : Int32.minValue.toInt = -0x80000000 := rfl
    change n < 256 ^ 4 at hn
    change ((Int32.ofInt (n + Int32.minValue.toInt)).toInt - Int32.minValue.toInt).toNat = n
    rw [Int32.toInt_ofInt_of_le (by omega) (by omega)]
    omega

instance : WordType.sint64.Full where
  exists_rank n hn := by
    refine ⟨Int64.ofInt (n + Int64.minValue.toInt), ?_⟩
    have hmin : Int64.minValue.toInt = -0x8000000000000000 := rfl
    change n < 256 ^ 8 at hn
    change ((Int64.ofInt (n + Int64.minValue.toInt)).toInt - Int64.minValue.toInt).toNat = n
    rw [Int64.toInt_ofInt_of_le (by omega) (by omega)]
    omega

end WordType

/-- Every word in an index block is a child number. -/
instance : word32.toCodec.Faithful := WordType.codec_faithful (T := WordType.uint32)

/-- Four bytes are a word, whichever end comes first. -/
theorem littleWord_faithful : littleWord.Faithful where
  exists_encode := by
    rintro bs _ ⟨⟩ hn
    have hlen : (bs.take 4).reverse.length = 4 := by simpa using hn
    have hlt := Bytes.toNat_lt (bs.take 4).reverse
    rw [hlen] at hlt
    have hword : (UInt32.ofNat (Bytes.toNat (bs.take 4).reverse)).toNat =
        Bytes.toNat (bs.take 4).reverse := UInt32.toNat_ofNat_of_lt hlt
    refine ⟨UInt32.ofNat (Bytes.toNat (bs.take 4).reverse), ?_⟩
    change Except.ok (Bytes.ofNatLE 4 (UInt32.ofNat (Bytes.toNat (bs.take 4).reverse)).toNat) = _
    rw [hword, Bytes.ofNatLE, Bytes.ofNat_toNat_of_length hlen,
      List.reverse_reverse]

/-! ### Byte strings -/

/-- The bytes that follow their number are so many. -/
theorem Counted.payload_eq_ok {bs body : Bytes} (h : payload bs = .ok body) :
    encode body = .ok (bs.take (countSize + body.length)) := by
  rw [payload] at h
  split at h
  · cases h
  · next count hcount =>
    dsimp only at h
    split at h
    · next b hb =>
      obtain rfl : b = body := Except.ok.inj h
      obtain ⟨hcountlen, hcounttake⟩ := Bytes.window?_eq_some hcount
      obtain ⟨hlen, htake⟩ := Bytes.window?_eq_some hb
      have hlt := count.toNat_lt
      rw [hcountlen, ← hlen] at hlt
      rw [encode_of_lt hlt, List.take_add, ← hcounttake, hlen,
        Bytes.ofNat_toNat_of_length hcountlen, ← htake]
    · cases h

theorem byteString_faithful : byteString.Faithful where
  exists_encode := by
    intro bs n h _
    change (Counted.payload bs).map _ = _ at h
    cases hpayload : Counted.payload bs with
    | error e =>
      rw [hpayload] at h
      cases h
    | ok body =>
      rw [hpayload] at h
      obtain rfl : Counted.countSize + body.length = n := Except.ok.inj h
      exact ⟨body, Counted.payload_eq_ok hpayload⟩

/-- All key codecs but that of texts are faithful. -/
theorem KeyKind.codec_faithful : ∀ {k : KeyKind}, k ≠ .text → k.codec.Faithful
  | word32, _ => WordType.codec_faithful (T := WordType.uint32)
  | word64, _ => WordType.codec_faithful (T := WordType.uint64)
  | int32, _ => WordType.codec_faithful (T := WordType.sint32)
  | int64, _ => WordType.codec_faithful (T := WordType.sint64)
  | byteString, _ => byteString_faithful
  | text, h => (h rfl).elim
  | littleWord, _ => littleWord_faithful

end PagedMap
