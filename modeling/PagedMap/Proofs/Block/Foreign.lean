/-
# Blocks of bytes that come from elsewhere

Whatever bytes a block is read from: if its codecs are faithful, the block is one of items
(`Block.exists_ofItems`), and an index block is one of keys and one child more
(`Index.exists_ofParts`). So what holds of the blocks that a tree has written holds of all
blocks that can be read.

Key theorems: `Block.exists_records`, `Block.exists_ofItems`, `Index.exists_ofParts`.
-/
import PagedMap.Proofs.Block.Parts
import PagedMap.Proofs.Codec.Faithful

namespace PagedMap

namespace Block

variable {κ π : Type} {K : OrderedCodec κ} {P : Codec π}

/-- One entry is cut off, and then the others. -/
theorem readEntries_succ {count n index offset stop : Nat} {rest : Bytes} {entries : List Bytes}
    (h : readEntries K P count (n + 1) index offset rest = .ok (entries, stop)) :
    ∃ k p entries', K.sizeAt rest = .ok k ∧ P.sizeAt (rest.drop k) = .ok p ∧
      readEntries K P count n (index + 1) (offset + (k + p)) (rest.drop (k + p)) =
        .ok (entries', stop) ∧ entries = rest.take (k + p) :: entries' := by
  rw [readEntries] at h
  split at h
  · cases h
  · obtain ⟨k, hk, h⟩ := exists_of_bind_eq_ok h
    obtain ⟨p, hp, h⟩ := exists_of_bind_eq_ok h
    obtain ⟨⟨entries', stop'⟩, hrest, h⟩ := exists_of_bind_eq_ok h
    obtain ⟨rfl, rfl⟩ := Prod.mk.inj (Except.ok.inj h)
    exact ⟨k, p, entries', hk, hp, hrest, rfl⟩

/-- The entries end where they begin, or after it. -/
theorem le_of_readEntries {count : Nat} : ∀ {n index offset stop : Nat} {rest : Bytes}
    {entries : List Bytes},
    readEntries K P count n index offset rest = .ok (entries, stop) → offset ≤ stop
  | 0, _, _, _, _, _, h => le_of_eq (Prod.mk.inj (Except.ok.inj h)).2
  | n + 1, _, _, _, _, _, h => by
    obtain ⟨k, p, entries', -, -, hrest, -⟩ := readEntries_succ h
    have := le_of_readEntries hrest
    omega

variable [K.Faithful] [P.Faithful]

/-- Entries that do not go on beyond the bytes are those of items. -/
theorem exists_records {count : Nat} : ∀ {n index offset stop : Nat} {rest : Bytes}
    {entries : List Bytes}, readEntries K P count n index offset rest = .ok (entries, stop) →
    stop ≤ offset + rest.length →
    ∃ items : List (κ × π), entries = items.map (record K P) ∧ ∀ i ∈ items, WritesItem K P i
  | 0, _, _, _, _, _, h, _ =>
    ⟨[], (Prod.mk.inj (Except.ok.inj h)).1.symm, fun _ hi => by cases hi⟩
  | n + 1, index, offset, stop, rest, _, h, hstop => by
    obtain ⟨k, p, entries', hk, hp, hrest, rfl⟩ := readEntries_succ h
    -- the entry lies within the bytes because all that come after it do
    have hle := le_of_readEntries hrest
    obtain ⟨x, hx, hkey⟩ := Codec.Faithful.exists_bytes hk (by omega)
    obtain ⟨y, hy, hpayload⟩ := Codec.Faithful.exists_bytes hp (by
      rw [List.length_drop]
      omega)
    obtain ⟨items, rfl, hitems⟩ := exists_records hrest (by
      rw [List.length_drop]
      omega)
    refine ⟨(x, y) :: items, ?_, List.forall_mem_cons.2 ⟨⟨hx, hy⟩, hitems⟩⟩
    rw [List.take_add, hkey, hpayload]
    rfl

/-- A block that can be read is one of items. -/
theorem exists_ofItems {bs : Bytes} {capacity : Nat} {b : Block K P}
    (h : ofBytes K P bs capacity = .ok b) :
    ∃ items last, b = ofItems K P capacity items last ∧ ∀ i ∈ items, WritesItem K P i := by
  rw [ofBytes] at h
  split at h
  · cases h
  · next hlong =>
    obtain ⟨⟨entries, stop⟩, hread, h⟩ := exists_of_bind_eq_ok h
    dsimp only at h
    split at h
    · cases h
    · next hspan =>
      obtain rfl := Except.ok.inj h
      obtain ⟨items, rfl, hitems⟩ := exists_records hread (by
        rw [List.length_drop]
        omega)
      exact ⟨items, _, rfl, hitems⟩

end Block

/-- An index block that can be read is one of keys and one child more. -/
theorem Index.exists_ofParts {κ : Type} {K : OrderedCodec κ} [K.Faithful] {bs : Bytes}
    {capacity : Nat} {b : Index K} (h : Block.ofBytes K word32.toCodec bs capacity = .ok b) :
    ∃ ks cs, b = ofParts K capacity ks cs ∧ cs.length = ks.length + 1 ∧ ∀ k ∈ ks, K.Writes k := by
  obtain ⟨items, last, rfl, hitems⟩ := Block.exists_ofItems h
  have hzip : (items.map Prod.fst).zip (items.map Prod.snd ++ [last]) = items := by
    rw [← List.append_nil (items.map Prod.fst), List.zip_append (by simp), List.zip_nil_left,
      List.append_nil]
    exact (List.zip_of_prod rfl rfl).symm
  refine ⟨items.map Prod.fst, items.map Prod.snd ++ [last], ?_, by simp, ?_⟩
  · rw [ofParts, hzip, getLastD_append_cons]
    rfl
  · exact List.forall_mem_map.2 fun i hi => (hitems i hi).1

end PagedMap
