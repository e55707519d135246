/-
# The codecs there are

The key codecs and the value codecs that a tree can be opened with, each lawful.

Key definitions: `KeyKind`, `ValueKind`.
Key theorems: `KeyKind.codec_lawful`, `KeyKind.codec_uniform`, `ValueKind.codec_lawful`.
-/
import PagedMap.Proofs.Codec.Counted
import PagedMap.Proofs.Codec.Word

namespace PagedMap

/-- The key codecs. -/
inductive KeyKind where
  | word32
  | word64
  | int32
  | int64
  | byteString
  | text
  | littleWord
  deriving Repr, DecidableEq

namespace KeyKind

/-- The keys that a codec writes. -/
def Item : KeyKind → Type
  | word32 => UInt32
  | word64 => UInt64
  | int32 => Int32
  | int64 => Int64
  | byteString => Bytes
  | text => String
  | littleWord => UInt32

/-- The codec of a kind of keys. -/
def codec : (k : KeyKind) → OrderedCodec k.Item
  | word32 => PagedMap.word32
  | word64 => PagedMap.word64
  | int32 => PagedMap.int32
  | int64 => PagedMap.int64
  | byteString => PagedMap.byteString
  | text => PagedMap.text
  | littleWord => PagedMap.littleWord

instance codec_transCmp : (k : KeyKind) → Std.TransCmp k.codec.compare
  | word32 => inferInstanceAs (Std.TransCmp WordType.uint32.codec.compare)
  | word64 => inferInstanceAs (Std.TransCmp WordType.uint64.codec.compare)
  | int32 => inferInstanceAs (Std.TransCmp WordType.sint32.codec.compare)
  | int64 => inferInstanceAs (Std.TransCmp WordType.sint64.codec.compare)
  | byteString => inferInstanceAs (Std.TransCmp PagedMap.byteString.compare)
  | text => inferInstanceAs (Std.TransCmp PagedMap.text.compare)
  | littleWord => inferInstanceAs (Std.TransCmp PagedMap.littleWord.compare)

instance codec_lawfulEqCmp : (k : KeyKind) → Std.LawfulEqCmp k.codec.compare
  | word32 => inferInstanceAs (Std.LawfulEqCmp WordType.uint32.codec.compare)
  | word64 => inferInstanceAs (Std.LawfulEqCmp WordType.uint64.codec.compare)
  | int32 => inferInstanceAs (Std.LawfulEqCmp WordType.sint32.codec.compare)
  | int64 => inferInstanceAs (Std.LawfulEqCmp WordType.sint64.codec.compare)
  | byteString => inferInstanceAs (Std.LawfulEqCmp PagedMap.byteString.compare)
  | text => inferInstanceAs (Std.LawfulEqCmp PagedMap.text.compare)
  | littleWord => inferInstanceAs (Std.LawfulEqCmp PagedMap.littleWord.compare)

/-- Keys are in the order that their codec tells. -/
instance order (k : KeyKind) : LinearOrder k.Item := linearOrderOf k.codec.compare

/-- Every key codec is lawful. -/
instance codec_lawful : (k : KeyKind) → k.codec.Lawful
  | word32 =>
    letI := linearOrderOf WordType.uint32.codec.compare
    WordType.codec_lawful (T := WordType.uint32) fun _ _ => rfl
  | word64 =>
    letI := linearOrderOf WordType.uint64.codec.compare
    WordType.codec_lawful (T := WordType.uint64) fun _ _ => rfl
  | int32 =>
    letI := linearOrderOf WordType.sint32.codec.compare
    WordType.codec_lawful (T := WordType.sint32) fun _ _ => rfl
  | int64 =>
    letI := linearOrderOf WordType.sint64.codec.compare
    WordType.codec_lawful (T := WordType.sint64) fun _ _ => rfl
  | byteString => byteString_lawful
  | text => text_lawful
  | littleWord => littleWord_lawful

/-- All integers of a type are written in the same number of bytes. -/
theorem codec_uniform : ∀ {k : KeyKind}, k ≠ .byteString → k ≠ .text → k.codec.Uniform
  | word32, _, _ | word64, _, _ | int32, _, _ | int64, _, _ =>
    ⟨_, fun _ => ⟨_, rfl, Bytes.length_ofNat _ _⟩⟩
  | littleWord, _, _ => ⟨_, fun _ => ⟨_, rfl, Bytes.length_ofNatLE _ _⟩⟩
  | byteString, h, _ => (h rfl).elim
  | text, _, h => (h rfl).elim

end KeyKind

/-- The value codecs: those of keys, and that of accounts. -/
inductive ValueKind where
  | key (kind : KeyKind)
  | account
  deriving Repr, DecidableEq

namespace ValueKind

/-- The values that a codec writes. -/
def Item : ValueKind → Type
  | key kind => kind.Item
  | account => Account

/-- The codec of a kind of values. -/
def codec : (v : ValueKind) → Codec v.Item
  | key kind => kind.codec.toCodec
  | account => PagedMap.account

/-- Every value codec is lawful. -/
instance codec_lawful : (v : ValueKind) → v.codec.Lawful
  | key kind => kind.codec_lawful.toLawful
  | account => account_lawful

end ValueKind

end PagedMap
