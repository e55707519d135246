/-
# UTF-8 read from bytes

A byte string is text if it is a sequence of UTF-8 encoded characters. When it
is not, the fault is described by two facts: how many bytes before it are text
(the place), and how long the faulty sequence is. That sequence is the longest
beginning of a character's encoding found at the place, or a single byte where
no encoding begins; if the bytes end inside it, the fault is an incomplete
sequence and has no length.

Key definitions: `Text.ofUtf8`, `Text.toUtf8`, `Text.Fault`, `Text.lossy`.
Key theorems: `Text.ofUtf8_toUtf8`, `Text.toUtf8_of_ofUtf8`.
-/
import PagedMap.Bytes

namespace PagedMap.Text

/-- Why a byte string is not text: the fault's place, and its length unless the
bytes end inside it. -/
structure Fault where
  place : Nat
  length? : Option Nat
  deriving Repr, DecidableEq

/-- The wording of a fault. -/
def Fault.message (f : Fault) : String :=
  match f.length? with
  | some n => s!"invalid utf-8 sequence of {n} bytes from index {f.place}"
  | none => s!"incomplete utf-8 byte sequence from index {f.place}"

/-- The ranges in which the bytes after a leading byte must lie, or `none` if no
encoding begins with the byte. The second byte's range leaves out encodings
that are longer than needed, surrogates, and numbers past U+10FFFF. -/
def continuation? (lead : UInt8) : Option (List (UInt8 × UInt8)) :=
  if lead < 0x80 then some []
  else if lead < 0xC2 then none
  else if lead < 0xE0 then some [(0x80, 0xBF)]
  else if lead < 0xF0 then
    some [(if lead = 0xE0 then 0xA0 else 0x80, if lead = 0xED then 0x9F else 0xBF), (0x80, 0xBF)]
  else if lead < 0xF5 then
    some [(if lead = 0xF0 then 0x90 else 0x80, if lead = 0xF4 then 0x8F else 0xBF),
      (0x80, 0xBF), (0x80, 0xBF)]
  else none

/-- What stands at the beginning of a byte string. -/
inductive Sequence where
  /-- A character's encoding of so many bytes. -/
  | character (length : Nat)
  /-- A faulty sequence of so many bytes. -/
  | invalid (length : Nat)
  /-- The beginning of an encoding, cut off by the end of the bytes. -/
  | incomplete
  deriving Repr, DecidableEq

/-- Compares the bytes after a leading byte with their ranges; `seen` bytes of
the sequence have been accepted. -/
def followSequence (seen : Nat) : List (UInt8 × UInt8) → Bytes → Sequence
  | [], _ => .character seen
  | _ :: _, [] => .incomplete
  | (lo, hi) :: ranges, b :: bs =>
    if lo ≤ b && b ≤ hi then followSequence (seen + 1) ranges bs else .invalid seen

/-- What stands at the beginning of the bytes `b :: bs`. -/
def sequenceAt (b : UInt8) (bs : Bytes) : Sequence :=
  match continuation? b with
  | some ranges => followSequence 1 ranges bs
  | none => .invalid 1

/-- Searches for the first fault. `skip` bytes belong to a character already
recognised, and `place` bytes have been passed. -/
def faultFrom (place skip : Nat) : Bytes → Option Fault
  | [] => none
  | b :: bs =>
    match skip with
    | skip + 1 => faultFrom (place + 1) skip bs
    | 0 =>
      match sequenceAt b bs with
      | .character n => faultFrom (place + 1) (n - 1) bs
      | .invalid n => some ⟨place, some n⟩
      | .incomplete => some ⟨place, none⟩

/-- The bytes of a text. -/
def toUtf8 (s : String) : Bytes := s.toUTF8.data.toList

/-- The text whose encoding the bytes are. -/
def ofUtf8 (bs : Bytes) : Except Fault String :=
  match String.fromUTF8? bs.toByteArray with
  | some s => .ok s
  | none => .error ((faultFrom 0 0 bs).getD ⟨0, some 1⟩)

/-- The code point encoded by a leading byte and the bytes after it. -/
def codePoint (lead : UInt8) (rest : Bytes) : Nat :=
  let first := match rest.length with
    | 0 => lead.toNat
    | 1 => lead.toNat % 32
    | 2 => lead.toNat % 16
    | _ => lead.toNat % 8
  rest.foldl (fun v b => v * 64 + b.toNat % 64) first

/-- Reads bytes as text and puts the replacement character in the place of each
faulty sequence. `skip` bytes belong to a sequence already dealt with. -/
def lossyFrom (skip : Nat) : Bytes → List Char
  | [] => []
  | b :: bs =>
    match skip with
    | skip + 1 => lossyFrom skip bs
    | 0 =>
      match sequenceAt b bs with
      | .character n => Char.ofNat (codePoint b (bs.take (n - 1))) :: lossyFrom (n - 1) bs
      | .invalid n => '\uFFFD' :: lossyFrom (n - 1) bs
      | .incomplete => ['\uFFFD']

/-- Reads bytes as text, with replacement characters for what is not. -/
def lossy (bs : Bytes) : List Char := lossyFrom 0 bs

/-- What was written as text is read back. -/
theorem ofUtf8_toUtf8 (s : String) : ofUtf8 (toUtf8 s) = .ok s := by
  have hb : (toUtf8 s).toByteArray = s.toByteArray := by
    rw [ByteArray.ext_iff]
    simp [toUtf8]
  have hs : String.fromUTF8? s.toByteArray = some s := by
    unfold String.fromUTF8?
    rw [dif_pos s.isValidUTF8]
    rfl
  simp [ofUtf8, hb, hs]

/-- Only the encoding of a text is read as that text. -/
theorem toUtf8_of_ofUtf8 {bs : Bytes} {s : String} (h : ofUtf8 bs = .ok s) : toUtf8 s = bs := by
  unfold ofUtf8 at h
  split at h
  · next t ht =>
    cases h
    unfold String.fromUTF8? at ht
    split at ht
    · cases ht
      simp [toUtf8, String.fromUTF8]
    · cases ht
  · cases h

end PagedMap.Text
