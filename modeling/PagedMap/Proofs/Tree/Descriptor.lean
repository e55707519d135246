/-
# Descriptors that are written and read

A descriptor is read back from a reserve that begins with what was written of it
(`Descriptor.decode_encode`). The descriptor of a tree that stores items can be written
and is read back as long as the number of items is a signed word: a tree is at most as
deep as the items allow, since it at least doubles with every level (`Tree.Below.pow_le`).

Key theorems: `Descriptor.decode_encode`, `Tree.Below.pow_le`, `Regime.Stores.descriptor_kept`.
-/
import PagedMap.Proofs.Store.Header
import PagedMap.Proofs.Tree.Structure
import PagedMap.Proofs.Tree.Truncate

namespace PagedMap

namespace Descriptor

variable {d : Descriptor} {bs : Bytes}

theorem length_fields (d : Descriptor) : d.fields.length = 16 := by
  simp [fields, Bytes.ofInt32]

/-- The words of a descriptor are found where they are read. -/
theorem fields_drop (d : Descriptor) (rest : Bytes) :
    (d.fields ++ rest).drop 4 = Bytes.ofInt32 d.leafLevel ++ (d.fields ++ rest).drop 8 ∧
      (d.fields ++ rest).drop 8 = Bytes.ofNat 4 d.length ++ (d.fields ++ rest).drop 12 ∧
      (d.fields ++ rest).drop 12 = Bytes.ofNat 4 writtenMark ++ rest ∧
      (d.fields ++ rest).drop 16 = rest := by
  have hword {as bs : Bytes} (k : Nat) (has : as.length = 4) :
      (as ++ bs).drop (4 + k) = bs.drop k := by
    rw [← List.drop_drop, List.drop_left' has]
  have hroot := Bytes.length_ofWord d.root
  have hlevel := Bytes.length_ofInt32 d.leafLevel
  have hlen := Bytes.length_ofNat 4
  simp only [fields, List.append_assoc]
  refine ⟨?_, ?_, ?_, ?_⟩
  · rw [hword 0 hroot, hword 4 hroot, hword 0 hlevel]
    rfl
  · rw [hword 4 hroot, hword 0 hlevel, hword 8 hroot, hword 4 hlevel, hword 0 (hlen _)]
    rfl
  · rw [hword 8 hroot, hword 4 hlevel, hword 0 (hlen _)]
    rfl
  · rw [hword 12 hroot, hword 8 hlevel, hword 4 (hlen _), hword 0 (hlen _)]
    rfl

/-- A descriptor is read back from a reserve that begins with what was written of it. -/
theorem decode_encode (h : d.encode = .ok bs) (hlow : -1 ≤ d.leafLevel)
    (hhigh : d.leafLevel ≤ maxInt32) (hsize : 0 ≤ d.size) (rest : Bytes) :
    decode (bs ++ rest) = .ok (some d) := by
  have hlen := length_of_encode h
  rw [encode] at h
  split at h
  · cases h
  next hroot =>
  split at h
  · cases h
  next hlength =>
  obtain rfl := Except.ok.inj h
  have hroot' : Bytes.toInt32 (d.fields ++ Bytes.ofWord (Checksum.ofBytes d.fields) ++ rest) =
      d.root.toNat := by
    rw [fields]
    simp only [List.append_assoc]
    exact Bytes.toInt32_ofNat_append (Nat.not_lt.1 hroot) _
  have hlength' : (d.length : Int) = d.size := by
    rw [length, if_pos hsize]
    exact Int.toNat_of_nonneg hsize
  have hlevel : -(maxInt32 : Int) ≤ d.leafLevel := by
    rw [maxInt32]
    omega
  obtain ⟨h4, h8, h12, h16⟩ := d.fields_drop (Bytes.ofWord (Checksum.ofBytes d.fields) ++ rest)
  rw [decode, if_neg (by rw [List.length_append, hlen]; omega)]
  dsimp only
  rw [hroot', List.append_assoc, h4, Bytes.toInt32_ofInt32_append hlevel hhigh, h8,
    Bytes.toInt32_ofNat_append (Nat.not_lt.1 hlength), h12, Bytes.toWord_ofNat_append, h16,
    Bytes.toWord_ofWord_append, List.take_left' d.length_fields, if_neg (by decide),
    if_neg (fun hne => hne rfl), if_neg (by omega), hlength', Int.toNat_natCast,
    UInt32.ofNat_toNat]

end Descriptor

/-! ### How deep a tree is -/

namespace Tree

variable {σ κ ν : Type} [Store σ] [LinearOrder κ] {K : OrderedCodec κ} {V : Codec ν}
  {t : Tree σ K V}

/-- With every level of index blocks there are at least twice as many items. -/
theorem Below.pow_le : ∀ {levels : Nat} {n : BlockNumber} {items : List (κ × ν)},
    t.Below levels n items → items ≠ [] → 2 ^ levels ≤ items.length
  | 0, _, _, _, hne => List.length_pos_iff.2 hne
  | levels + 1, _, _, h, _ => by
    obtain ⟨-, node, keys, children, parts, -, -, -, hlen, hkeys, hbelow, -, hparts, rfl⟩ := h
    obtain ⟨k, ks, rfl⟩ := List.exists_cons_of_ne_nil hkeys
    obtain ⟨c, cs, rfl⟩ := List.exists_cons_of_length_eq_add_one hlen
    obtain ⟨d, ds, rfl⟩ := List.exists_cons_of_length_eq_add_one (Nat.succ.inj hlen)
    obtain ⟨a, _, ha, hrest, rfl⟩ := List.forall₂_cons_left_iff.1 hbelow
    obtain ⟨b, rest, hb, -, rfl⟩ := List.forall₂_cons_left_iff.1 hrest
    have ha := ha.pow_le (hparts a (List.mem_cons_self ..))
    have hb := hb.pow_le (hparts b (List.mem_cons_of_mem _ (List.mem_cons_self ..)))
    rw [List.flatten_cons, List.flatten_cons, List.length_append, List.length_append, pow_succ]
    omega

end Tree

namespace Regime

variable {σ κ ν : Type} [Store σ] [LawfulStore σ] [LinearOrder κ] {K : OrderedCodec κ}
  {V : Codec ν} [K.Lawful] [V.Lawful] {g : Regime K V} {R : Heap} {t : Tree σ K V}
  {items : List (κ × ν)}

/-- A tree that stores items is not deeper than there are items. -/
theorem Stores.leafLevel_le (h : g.Stores items R t) :
    -1 ≤ t.descriptor.leafLevel ∧ t.descriptor.leafLevel ≤ items.length := by
  obtain ⟨hlevels, hbelow⟩ := h.below
  cases items with
  | nil =>
    rw [h.leaf_of_nil.1]
    omega
  | cons i items =>
    have hpow := hbelow.pow_le (List.cons_ne_nil i items)
    have hlt := Nat.lt_two_pow_self (n := t.descriptor.indexLevels)
    omega

/-- The root of a tree that stores items is allocated. -/
theorem Stores.root_allocated (h : g.Stores items R t) :
    Store.isAllocated t.store (if t.descriptor.leafLevel < 0 then .leaf else .index)
      t.descriptor.root = true := by
  obtain ⟨hlevels, hbelow⟩ := h.below
  cases hlevel : t.descriptor.indexLevels with
  | zero =>
    rw [hlevel] at hlevels hbelow
    rw [if_pos (by omega)]
    exact hbelow.1
  | succ level =>
    rw [hlevel] at hlevels hbelow
    rw [if_neg (by omega)]
    exact hbelow.1

/-- The descriptor of a tree that stores items is written, and read back. -/
theorem Stores.descriptor_kept (h : g.Stores items R t) (hroot : t.descriptor.root.toNat ≤ maxInt32)
    (hlen : items.length ≤ maxInt32) :
    ∃ bs, t.descriptor.encode = .ok bs ∧
      ∀ rest, Descriptor.decode (bs ++ rest) = .ok (some t.descriptor) := by
  cases hencode : t.descriptor.encode with
  | error e =>
    have hlarge := (Descriptor.encode_error hroot hencode).2
    rw [Descriptor.length_of_size h.size_eq] at hlarge
    omega
  | ok bs =>
    obtain ⟨hlow, hhigh⟩ := h.leafLevel_le
    refine ⟨bs, rfl, Descriptor.decode_encode hencode hlow (by omega) ?_⟩
    rw [h.size_eq]
    exact Int.natCast_nonneg _

end Regime

end PagedMap
