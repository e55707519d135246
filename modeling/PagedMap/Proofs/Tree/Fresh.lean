/-
# Trees in new stores

A store that was just made has room for a tree and tells of none; so a tree opens in it
(`Device.Blank.opens`), and what is reachable from there has nothing beside it
(`Device.Blank.stores`).

Key theorems: `Descriptor.decode_zeros`, `Device.Blank.opens`, `Device.Blank.stores`.
-/
import PagedMap.Proofs.Store.Device
import PagedMap.Proofs.Tree.Opened

namespace PagedMap

/-- Zeros are no descriptor. -/
theorem Descriptor.decode_zeros {n : Nat} (h : descriptorSize ≤ n) :
    decode (List.replicate n 0) = .ok none := by
  have hmin : min 4 (n - 12) = 4 := by
    rw [descriptorSize] at h
    omega
  have hmark : Bytes.toWord ((List.replicate n 0).drop 12) = 0 := by
    rw [Bytes.toWord, List.drop_replicate, List.take_replicate, hmin]
    rfl
  rw [decode, if_neg (by rw [List.length_replicate]; omega)]
  dsimp only
  rw [hmark]
  rfl

namespace Device

variable {κ ν : Type} [LinearOrder κ] {K : OrderedCodec κ} {V : Codec ν} {o : Options}
  {s s' : Device} {t : Tree Device K V}

theorem Blank.isBlank (h : s.Blank) : IsBlank s := by
  refine ⟨s.reserved, LawfulStore.reserve_eq h.valid, ?_⟩
  rw [h.reserved_eq]
  exact Descriptor.decode_zeros h.valid.shape_valid.descriptorSize_le

/-- A tree opens in a store that was just made. -/
theorem Blank.opens (h : s.Blank) (K : OrderedCodec κ) (V : Codec ν) :
    ∃ (t : Tree Device K V) (s' : Device), Tree.ofStore K V s = (.ok t, s') :=
  Regime.exists_ofStore K V h.valid h.isBlank (n := 0) h.maxBlocks_pos (congrFun h.heap_eq _)

/-- A tree that is reachable from a store that was just made has nothing beside it. -/
theorem Blank.stores [K.Lawful] [V.Lawful] (h : s.Blank) (hreachable : Tree.Reachable K V s t) :
    ∃ items, (Regime.ofShape K V s.shape).Stores items (fun _ => none) t := by
  have hstores := Regime.reachable_stores h.valid h.isBlank hreachable
  rwa [show LawfulStore.heap s = _ from h.heap_eq] at hstores

/-- A store in memory with 64 blocks of 32 bytes, which have room for three entries of
eight bytes. -/
def small : Device := .memory ⟨.empty 32 64, none, 20, []⟩

theorem small_fresh :
    Fresh { blockSize := 32, maxBlocks := 64, regionBlockSize := 32, reserveSize := 20 } small :=
  .shared rfl

/-- Calls after which four keys do not fit into a leaf of the small store, and three do. -/
def smallCalls : List (Call UInt32 UInt32) :=
  [.insert 3 30, .insert 1 10, .insert 2 20, .insert 4 40, .insertIfNew 3 31, .erase 2, .erase 5]

end Device

end PagedMap
