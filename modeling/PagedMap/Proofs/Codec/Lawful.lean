/-
# What a codec promises

A lawful codec finds the length of an encoding and reads the item back,
whatever follows the encoding. A lawful key codec also orders its keys
linearly, tells that order from the encodings, and separates two keys by the
encoding of a key above the first and not above the second, which is no longer
than the second.

Key definitions: `Codec.Lawful`, `OrderedCodec.Lawful`, `Codec.bytes`,
`Codec.Writes`, `Codec.Uniform`, `linearOrderOf`.
Key theorems: `OrderedCodec.compareEncoded_append`, `OrderedCodec.exists_separator`.
-/
import Mathlib.Algebra.Order.Ring.Int
import Mathlib.Order.Compare
import PagedMap.Codec

namespace PagedMap

/-- A codec whose encodings can be told apart from what follows them. -/
class Codec.Lawful {α : Type} (C : Codec α) : Prop where
  sizeAt_append : ∀ {x : α} {bs : Bytes}, C.encode x = .ok bs → ∀ rest,
    C.sizeAt (bs ++ rest) = .ok bs.length
  decode_append : ∀ {x : α} {bs : Bytes}, C.encode x = .ok bs → ∀ rest,
    C.decode (bs ++ rest) = .ok x
  length_of_fixed : ∀ {x : α} {bs : Bytes} {n : Nat}, C.fixedSize? = some n →
    C.encode x = .ok bs → bs.length = n

/-- A key codec whose encodings keep the order of the keys. -/
class OrderedCodec.Lawful {κ : Type} [LinearOrder κ] (K : OrderedCodec κ) : Prop
    extends K.toCodec.Lawful where
  length_pos : ∀ {x : κ} {bs : Bytes}, K.encode x = .ok bs → 0 < bs.length
  compare_eq : ∀ x y : κ, K.compare x y = Ord.compare x y
  compareBytes?_append : ∀ {x y : κ} {a b : Bytes} {o : Ordering}, K.encode x = .ok a →
    K.encode y = .ok b → ∀ t u, K.compareBytes? (a ++ t) (b ++ u) = some o → o = Ord.compare x y
  separate_of_lt : ∀ {x y : κ} {a b : Bytes}, K.encode x = .ok a → K.encode y = .ok b → x < y →
    ∃ z c, K.separate a b = .ok c ∧ K.encode z = .ok c ∧ x < z ∧ z ≤ y ∧ c.length ≤ b.length

/-- The linear order that a comparison tells. -/
@[reducible]
def linearOrderOf {α : Type} (cmp : α → α → Ordering) [Std.TransCmp cmp] [Std.LawfulEqCmp cmp] :
    LinearOrder α where
  le a b := (cmp a b).isLE
  lt a b := cmp a b = .lt
  le_refl a := by rw [show cmp a a = .eq from Std.ReflCmp.compare_self]; rfl
  le_trans a b c hab hbc := Std.TransCmp.isLE_trans hab hbc
  le_antisymm a b hab hba :=
    Std.LawfulEqCmp.eq_of_compare (Std.OrientedCmp.isLE_antisymm hab hba)
  lt_iff_le_not_ge a b := by
    rw [show cmp b a = (cmp a b).swap from Std.OrientedCmp.eq_swap]
    cases cmp a b <;> decide
  le_total a b := by
    rw [show cmp b a = (cmp a b).swap from Std.OrientedCmp.eq_swap]
    cases cmp a b <;> decide
  toDecidableLE a b := inferInstanceAs (Decidable ((cmp a b).isLE = true))
  toDecidableEq a b := decidable_of_iff (cmp a b = .eq) Std.LawfulEqCmp.compare_eq_iff_eq
  toDecidableLT a b := inferInstanceAs (Decidable (cmp a b = .lt))
  compare := cmp
  compare_eq_compareOfLessAndEq a b := by
    simp only [compareOfLessAndEq]
    cases h : cmp a b with
    | lt => rfl
    | eq =>
      obtain rfl := Std.LawfulEqCmp.eq_of_compare h
      simp
    | gt =>
      have hne : a ≠ b := fun e => by
        rw [e, show cmp b b = .eq from Std.ReflCmp.compare_self] at h
        cases h
      simp [hne]

namespace Codec

variable {α : Type} (C : Codec α)

/-- The encoding of an item, if it has one. -/
def bytes (x : α) : Bytes :=
  match C.encode x with
  | .ok bs => bs
  | .error _ => []

/-- The item has an encoding. -/
def Writes (x : α) : Prop := C.encode x = .ok (C.bytes x)

/-- The number of bytes of an item's encoding. -/
def width (x : α) : Nat := (C.bytes x).length

variable {C}

theorem bytes_of_encode {x : α} {bs : Bytes} (h : C.encode x = .ok bs) : C.bytes x = bs := by
  simp [bytes, h]

theorem writes_of_encode {x : α} {bs : Bytes} (h : C.encode x = .ok bs) : C.Writes x := by
  rw [Writes, bytes_of_encode h, h]

/-- Every item has an encoding, and all of them have the same length. -/
def Uniform (C : Codec α) : Prop := ∃ n, ∀ x, ∃ bs, C.encode x = .ok bs ∧ bs.length = n

theorem Uniform.writes (h : C.Uniform) (x : α) : C.Writes x := by
  obtain ⟨n, h⟩ := h
  obtain ⟨bs, hbs, -⟩ := h x
  exact writes_of_encode hbs

theorem Uniform.exists_width (h : C.Uniform) : ∃ n, ∀ x, C.width x = n := by
  obtain ⟨n, h⟩ := h
  refine ⟨n, fun x => ?_⟩
  obtain ⟨bs, hbs, hlen⟩ := h x
  rw [width, bytes_of_encode hbs, hlen]

theorem not_writes_of_error {x : α} {e : Error} (h : C.encode x = .error e) : ¬ C.Writes x := by
  rw [Writes, h]
  exact nofun

variable [C.Lawful]

theorem decode_bytes {x : α} (h : C.Writes x) : C.decode (C.bytes x) = .ok x := by
  simpa using Lawful.decode_append h []

end Codec

namespace OrderedCodec

variable {κ : Type} [LinearOrder κ] {K : OrderedCodec κ} [K.Lawful]

theorem width_pos {x : κ} (h : K.Writes x) : 0 < K.width x := Lawful.length_pos h

/-- Encoded keys are in the order of the keys, whatever follows them. -/
theorem compareEncoded_append {x y : κ} {a b : Bytes} (hx : K.encode x = .ok a)
    (hy : K.encode y = .ok b) (t u : Bytes) :
    K.compareEncoded (a ++ t) (b ++ u) = .ok (Ord.compare x y) := by
  unfold compareEncoded
  cases h : K.compareBytes? (a ++ t) (b ++ u) with
  | some o => rw [Lawful.compareBytes?_append hx hy t u h]
  | none =>
    simp only [Codec.Lawful.decode_append hx t, Codec.Lawful.decode_append hy u,
      Lawful.compare_eq]
    rfl

theorem compareEncoded_bytes {x y : κ} (hx : K.Writes x) (hy : K.Writes y) :
    K.compareEncoded (K.bytes x) (K.bytes y) = .ok (Ord.compare x y) := by
  simpa using compareEncoded_append hx hy [] []

/-- Between two keys stands a key whose encoding is no longer than the upper
one's. -/
theorem exists_separator {x y : κ} (hx : K.Writes x) (hy : K.Writes y) (h : x < y) :
    ∃ z, K.separate (K.bytes x) (K.bytes y) = .ok (K.bytes z) ∧ K.Writes z ∧ x < z ∧ z ≤ y ∧
      K.width z ≤ K.width y := by
  obtain ⟨z, c, hc, hz, hxz, hzy, hl⟩ := Lawful.separate_of_lt hx hy h
  obtain rfl := Codec.bytes_of_encode hz
  exact ⟨z, hc, Codec.writes_of_encode hz, hxz, hzy, hl⟩

end OrderedCodec

end PagedMap
