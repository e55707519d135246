/-
# Codecs that never fault

Whatever bytes they are given, the codecs there are never end in a fault, and find no key in
an entry that is longer than the entry (`KeyKind.codec_faultless`,
`ValueKind.codec_faultless`).

Key definitions: `Codec.Faultless`, `OrderedCodec.Faultless`.
Key theorems: `OrderedCodec.compareEncoded_ne`, `KeyKind.codec_faultless`,
`ValueKind.codec_faultless`.
-/
import PagedMap.Block.Basic
import PagedMap.Proofs.Answers
import PagedMap.Proofs.Codec.Kinds

namespace PagedMap

/-- A codec that never faults. -/
class Codec.Faultless {α : Type} (C : Codec α) : Prop where
  sizeAt_ne : ∀ bs, C.sizeAt bs ≠ .error .fault
  encode_ne : ∀ x, C.encode x ≠ .error .fault
  decode_ne : ∀ bs, C.decode bs ≠ .error .fault

/-- A key codec that never faults, and finds keys only inside the entries that were cut off
by their lengths. -/
class OrderedCodec.Faultless {κ : Type} (K : OrderedCodec κ) : Prop
    extends K.toCodec.Faultless where
  keyLength_le : ∀ {bs : Bytes} {k m n : Nat}, K.sizeAt bs = .ok k → k ≤ m → m ≤ bs.length →
    Block.keyLength K (bs.take m) = .ok n → n ≤ m

/-- Encoded keys are compared without faults. -/
theorem OrderedCodec.compareEncoded_ne {κ : Type} (K : OrderedCodec κ) [K.Faultless]
    (a b : Bytes) : K.compareEncoded a b ≠ .error .fault := by
  rw [compareEncoded]
  split
  · rintro ⟨⟩
  · exact bind_ne_fault (Codec.Faultless.decode_ne a) fun _ =>
      bind_ne_fault (Codec.Faultless.decode_ne b) fun _ => ok_ne_fault _

/-! ### Integers -/

namespace WordType

variable {α : Type} {T : WordType α} {bs : Bytes}

theorem digits_answers : Answers (T.digits bs) fun ds => ds.length = T.width := by
  rw [digits]
  split
  · next ds hds =>
    rw [Bytes.window?_eq] at hds
    split at hds
    · next hn => exact Option.some.inj hds ▸ List.length_take_of_le hn
    · cases hds
  · exact answers_error (by rintro ⟨⟩)

theorem codec_faultless : T.codec.Faultless where
  sizeAt_ne _ := map_ne_fault _ digits_answers.ne_fault
  encode_ne _ := ok_ne_fault _
  decode_ne _ := map_ne_fault _ digits_answers.ne_fault
  keyLength_le := by
    intro bs k m n hk hkm _ hn
    have hsize : Answers (T.codec.sizeAt bs) (· = T.width) := digits_answers.map fun _ h => h
    rw [hk] at hsize
    obtain rfl : T.width = n := Except.ok.inj hn
    exact Nat.le_trans (Nat.le_of_eq (Eq.symm hsize)) hkm

end WordType

instance : word32.Faultless := WordType.codec_faultless

theorem littleWord_faultless : littleWord.Faultless where
  sizeAt_ne _ := ok_ne_fault _
  encode_ne _ := ok_ne_fault _
  decode_ne bs :=
    bind_ne_fault (Codec.Faultless.decode_ne (C := word32.toCodec) bs) fun _ => ok_ne_fault _
  keyLength_le := by
    rintro bs k m n ⟨⟩ hkm _ ⟨⟩
    exact hkm

/-! ### Counted bytes -/

namespace Counted

variable {bs : Bytes}

theorem payload_answers : Answers (payload bs) fun body => countSize + body.length ≤ bs.length := by
  rw [payload]
  split
  · exact answers_error (by rintro ⟨⟩)
  · next count hcount =>
    dsimp only
    split
    · next body hbody =>
      rw [Bytes.window?_eq] at hcount hbody
      split at hcount
      · next hle =>
        split at hbody
        · next hle' =>
          obtain rfl := Option.some.inj hbody
          rw [List.length_drop] at hle'
          refine answers_ok ?_
          rw [List.length_take_of_le (by rwa [List.length_drop])]
          omega
        · cases hbody
      · cases hcount
    · exact answers_error (by rintro ⟨⟩)

theorem sizeAt_answers : Answers (sizeAt bs) fun n => n ≤ bs.length :=
  payload_answers.map fun _ h => h

theorem encode_ne : encode bs ≠ .error .fault := by
  rw [encode]
  split <;> rintro ⟨⟩

theorem readText_ne : readText bs ≠ .error .fault := by
  rw [readText]
  split <;> rintro ⟨⟩

/-- A key with its length in front is not longer than the bytes that it is found in. -/
theorem sizeAt_take_le {m n : Nat} (h : sizeAt (bs.take m) = .ok n) : n ≤ m := by
  have hsize : Answers (sizeAt (bs.take m)) fun n => n ≤ (bs.take m).length := sizeAt_answers
  rw [h] at hsize
  exact Nat.le_trans hsize (List.length_take_le m bs)

end Counted

theorem byteString_faultless : byteString.Faultless where
  sizeAt_ne _ := Counted.sizeAt_answers.ne_fault
  encode_ne _ := Counted.encode_ne
  decode_ne _ := Counted.payload_answers.ne_fault
  keyLength_le _ _ _ hn := Counted.sizeAt_take_le hn

theorem text_faultless : text.Faultless where
  sizeAt_ne _ := Counted.sizeAt_answers.ne_fault
  encode_ne _ := Counted.encode_ne
  decode_ne _ := bind_ne_fault Counted.payload_answers.ne_fault fun _ => Counted.readText_ne
  keyLength_le _ _ _ hn := Counted.sizeAt_take_le hn

namespace Account

variable {bs : Bytes}

theorem payload_ne : payload bs ≠ .error .fault := by
  rw [payload]
  split
  · rintro ⟨⟩
  · exact Counted.payload_answers.ne_fault

theorem ofBody_ne : ofBody bs ≠ .error .fault := by
  rw [ofBody]
  split <;> rintro ⟨⟩

end Account

theorem account_faultless : account.Faultless where
  sizeAt_ne _ := map_ne_fault _ Account.payload_ne
  encode_ne a := by
    simp only [account]
    cases Counted.encode a.body <;> rintro ⟨⟩
  decode_ne _ := bind_ne_fault Account.payload_ne fun _ => Account.ofBody_ne

/-! ### The codecs there are -/

/-- No key codec faults. -/
instance KeyKind.codec_faultless : (k : KeyKind) → k.codec.Faultless
  | word32 => WordType.codec_faultless
  | word64 => WordType.codec_faultless
  | int32 => WordType.codec_faultless
  | int64 => WordType.codec_faultless
  | byteString => byteString_faultless
  | text => text_faultless
  | littleWord => littleWord_faultless

/-- No value codec faults. -/
instance ValueKind.codec_faultless : (v : ValueKind) → v.codec.Faultless
  | key kind => kind.codec_faultless.toFaultless
  | account => account_faultless

end PagedMap
