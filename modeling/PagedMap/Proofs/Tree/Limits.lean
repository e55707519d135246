/-
# What entries a tree takes

The limits of a tree are a third of the room in a leaf for an entry, and a third of
the room in either kind of block for a key. An entry is encoded if and only if its
item is within the limits (`Regime.encodeEntry_eq`, `Regime.encodeEntry_refused`).

Key definitions: `IsInvalidArgument`, `IsInvalidState`.
Key theorems: `Regime.encodeEntry_eq`, `Regime.encodeEntry_ok`,
`Regime.encodeEntry_refused`, `Regime.encodeEntry_error`.
-/
import PagedMap.Proofs.Tree.Cells

namespace PagedMap

/-- The error is that an argument is invalid. -/
def IsInvalidArgument : Error → Prop
  | .invalidArgument _ => True
  | _ => False

/-- The error is that the tree is not in a state for the call. -/
def IsInvalidState : Error → Prop
  | .invalidState _ => True
  | _ => False

namespace Regime

variable {σ κ ν : Type} [Store σ] [LawfulStore σ] {K : OrderedCodec κ} {V : Codec ν}
  {g : Regime K V} {t : Tree σ K V} {k : κ} {v : ν}

theorem maxEntrySize_eq (h : g.On t) : t.maxEntrySize = g.third 0 := by
  rw [Tree.maxEntrySize, h.blockSize_eq]
  rfl

theorem maxKeySize_eq (h : g.On t) : t.maxKeySize = g.keyLimit := by
  rw [Tree.maxKeySize, maxEntrySize_eq h, h.blockSize_eq]
  rfl

/-- Whether an item that can be written is within the limits. -/
theorem checkSize_eq (h : g.On t) (hw : Block.WritesItem K V (k, v)) :
    g.FitsItem (k, v) ∧ t.checkSize (K.bytes k) (Block.record K V (k, v)) = .ok () ∨
      ¬ g.FitsItem (k, v) ∧ ∃ e, t.checkSize (K.bytes k) (Block.record K V (k, v)) = .error e ∧
        IsInvalidArgument e := by
  rw [Tree.checkSize, maxEntrySize_eq h, maxKeySize_eq h]
  by_cases hentry : g.third 0 < (Block.record K V (k, v)).length
  · rw [if_pos hentry]
    exact .inr ⟨fun hfits => Nat.not_lt.2 hfits.length_le hentry, _, rfl, trivial⟩
  · rw [if_neg hentry]
    by_cases hkey : g.keyLimit < (K.bytes k).length
    · rw [if_pos hkey]
      exact .inr ⟨fun hfits => Nat.not_lt.2 hfits.width_le hkey, _, rfl, trivial⟩
    · rw [if_neg hkey]
      exact .inl ⟨⟨hw, Nat.not_lt.1 hentry, Nat.not_lt.1 hkey⟩, rfl⟩

omit [LawfulStore σ] in
theorem encodeEntry_of_writes (hw : Block.WritesItem K V (k, v)) :
    t.encodeEntry k v = do
      t.checkSize (K.bytes k) (Block.record K V (k, v))
      return (K.bytes k, Block.record K V (k, v)) := by
  have hkey : K.encode k = .ok (K.bytes k) := hw.1
  have hvalue : V.encode v = .ok (V.bytes v) := hw.2
  simp only [Tree.encodeEntry, hkey, hvalue, bind, Except.bind, Block.record]

/-- An item within the limits is encoded. -/
theorem encodeEntry_eq (h : g.On t) (hfits : g.FitsItem (k, v)) :
    t.encodeEntry k v = .ok (K.bytes k, Block.record K V (k, v)) := by
  rw [encodeEntry_of_writes hfits.writes]
  obtain ⟨-, hcheck⟩ | ⟨hnot, -⟩ := checkSize_eq h hfits.writes
  · rw [hcheck]
    rfl
  · exact (hnot hfits).elim

/-- What can be written but is not within the limits is refused. -/
theorem encodeEntry_refused (h : g.On t) (hw : Block.WritesItem K V (k, v))
    (hfits : ¬ g.FitsItem (k, v)) : ∃ e, t.encodeEntry k v = .error e ∧ IsInvalidArgument e := by
  rw [encodeEntry_of_writes hw]
  obtain ⟨hyes, -⟩ | ⟨-, e, hcheck, he⟩ := checkSize_eq h hw
  · exact (hfits hyes).elim
  · exact ⟨e, by rw [hcheck]; rfl, he⟩

/-- What is encoded is within the limits. -/
theorem encodeEntry_ok (h : g.On t) {b : Bytes × Bytes} (hb : t.encodeEntry k v = .ok b) :
    g.FitsItem (k, v) ∧ b = (K.bytes k, Block.record K V (k, v)) := by
  have hw : Block.WritesItem K V (k, v) := by
    rw [Tree.encodeEntry] at hb
    cases hkey : K.encode k with
    | error e =>
      rw [hkey] at hb
      cases hb
    | ok a =>
      rw [hkey] at hb
      cases hvalue : V.encode v with
      | error e =>
        rw [hvalue] at hb
        cases hb
      | ok c => exact ⟨Codec.writes_of_encode hkey, Codec.writes_of_encode hvalue⟩
  by_cases hfits : g.FitsItem (k, v)
  · rw [encodeEntry_eq h hfits] at hb
    exact ⟨hfits, (Except.ok.inj hb).symm⟩
  · obtain ⟨e, he, -⟩ := encodeEntry_refused h hw hfits
    rw [he] at hb
    cases hb

/-- What is not encoded is refused or cannot be written. -/
theorem encodeEntry_error (h : g.On t) {e : Error} (he : t.encodeEntry k v = .error e) :
    IsInvalidArgument e ∨ K.encode k = .error e ∨ V.encode v = .error e := by
  cases hkey : K.encode k with
  | error e' =>
    rw [Tree.encodeEntry, hkey] at he
    obtain rfl : e' = e := Except.error.inj he
    exact .inr (.inl rfl)
  | ok a =>
    cases hvalue : V.encode v with
    | error e' =>
      rw [Tree.encodeEntry, hkey] at he
      simp only [hvalue, bind, Except.bind] at he
      obtain rfl : e' = e := Except.error.inj he
      exact .inr (.inr rfl)
    | ok c =>
      have hw : Block.WritesItem K V (k, v) :=
        ⟨Codec.writes_of_encode hkey, Codec.writes_of_encode hvalue⟩
      by_cases hfits : g.FitsItem (k, v)
      · rw [encodeEntry_eq h hfits] at he
        cases he
      · obtain ⟨e', he', hinvalid⟩ := encodeEntry_refused h hw hfits
        rw [he'] at he
        exact .inl (Except.error.inj he ▸ hinvalid)

end Regime

end PagedMap
