/-
# Reading and writing the cells of a tree

On a tree whose store has the sizes of a regime, a block that the store holds is
read as what it was written from (`Regime.readLeaf_eq`, `Regime.readIndex_eq`).
Writing, freeing and adding a block changes the cells that the store holds at
this one block (`Regime.write_run`, `Regime.free_run`, `Regime.add_ends`).

Key definitions: `Regime.On`, `Regime.Stays`, `IsOutOfSpace`, `IsFull`.
-/
import PagedMap.Proofs.Tree.Subtree
import PagedMap.Tree.Basic

namespace PagedMap

/-- The error is that a pool is full. -/
def IsOutOfSpace : Error → Prop
  | .outOfSpace _ _ => True
  | _ => False

/-- The error is that this pool is full. -/
def IsFull (pool : Pool) (e : Error) : Prop := ∃ maxBlocks, e = .outOfSpace pool maxBlocks

theorem IsFull.isOutOfSpace {pool : Pool} {e : Error} (h : IsFull pool e) : IsOutOfSpace e := by
  obtain ⟨n, rfl⟩ := h
  trivial

/-- What is done in the store changes nothing else of the tree. -/
theorem Tree.ends_onStore {σ κ ν α : Type} {K : OrderedCodec κ} {V : Codec ν} {act : Action σ α}
    {t : Tree σ K V} {E : Error → σ → Prop} {Q : α → σ → Prop} (h : Ends act t.store E Q) :
    Ends (onStore act) t (fun e t' => E e t'.store) fun a t' => Q a t'.store := by
  rw [Ends] at h
  simp only [Ends, onStore]
  split at h <;> next hrun =>
    rw [hrun]
    exact h

namespace Regime

variable {σ κ ν : Type} [Store σ] [LawfulStore σ] {K : OrderedCodec κ} {V : Codec ν}
  {g : Regime K V} {t t' t'' : Tree σ K V}

/-- The blocks of the tree that the store holds. -/
def heap (t : Tree σ K V) : Heap := LawfulStore.heap t.store

/-- The tree's store is valid and has the sizes of the regime. -/
structure On (g : Regime K V) (t : Tree σ K V) : Prop where
  valid : LawfulStore.Valid t.store
  shape : LawfulStore.shape t.store = g.shape

/-- The tree may have changed in its blocks, and in nothing else. -/
structure Stays (g : Regime K V) (t t' : Tree σ K V) : Prop where
  on : g.On t'
  descriptor : t'.descriptor = t.descriptor
  reserved : LawfulStore.reserved t'.store = LawfulStore.reserved t.store

theorem Stays.refl (h : g.On t) : g.Stays t t := ⟨h, rfl, rfl⟩

theorem Stays.trans (h : g.Stays t t') (h' : g.Stays t' t'') : g.Stays t t'' :=
  ⟨h'.on, h'.descriptor.trans h.descriptor, h'.reserved.trans h.reserved⟩

/-! ### Sizes -/

theorem On.shape_valid (h : g.On t) : g.shape.Valid := h.shape ▸ LawfulStore.shape_valid h.valid

theorem On.blockSize_eq (h : g.On t) (kind : Pool) :
    Store.blockSize t.store kind = g.shape.blockSize kind := by
  rw [LawfulStore.blockSize_eq, h.shape]

theorem size_eq (h : g.shape.Valid) (level : Nat) : g.size level = 8 + g.room level := by
  have := h.minBlockSize_le (kind level)
  rw [minBlockSize] at this
  rw [room, size]
  omega

theorem room_ge (h : g.shape.Valid) (level : Nat) : 24 ≤ g.room level := by
  have := h.minBlockSize_le (kind level)
  rw [minBlockSize] at this
  rw [room, size]
  omega

theorem size_lt (h : g.shape.Valid) (level : Nat) : g.size level < 2 ^ 31 := by
  have := h.blockSize_le (kind level)
  rw [maxInt32] at this
  rw [size]
  omega

theorem third_le (level : Nat) : 3 * g.third level ≤ g.room level := by
  rw [third]
  omega

theorem third_ge (h : g.shape.Valid) (level : Nat) : 8 ≤ g.third level := by
  have := room_ge h level
  rw [third]
  omega

/-- Three separators fit into an index block. -/
theorem FitsKey.length_le (h : g.shape.Valid) {k : κ} (hk : g.FitsKey k) :
    K.width k + 4 ≤ g.third 1 := by
  have := hk.width_le
  have := third_ge h 1
  rw [keyLimit] at *
  omega

/-! ### Reading -/

section Read

variable [LinearOrder κ] [K.Lawful]

theorem readLeaf_eq [V.Lawful] (h : g.On t) {x : LeafNode κ ν}
    (hcell : heap t (g.cell 0 x).1 = some (g.cell 0 x).2) (hfits : ∀ i ∈ x.items, g.FitsItem i)
    (hmass : g.mass 0 x ≤ g.room 0) : t.readLeaf x.number = .ok (g.leaf x.items) := by
  have hsize := size_eq h.shape_valid 0
  have hlt := size_lt h.shape_valid 0
  have hmass' : 8 + Block.bytesOf K V x.items ≤ g.size 0 := by
    rw [hsize]
    exact Nat.add_le_add_left hmass 8
  have hbytes : (g.leaf x.items).toBytes.length ≤ g.size 0 := by
    rw [leaf, Block.length_toBytes]
    exact hmass'
  have hread : Store.read t.store .leaf x.number = .ok (g.cell 0 x).2 := by
    refine LawfulStore.read_eq h.valid ?_
    rw [h.shape]
    exact hcell
  have hcount := Block.length_le_bytesOf fun i hi => (hfits i hi).writes
  have hof := @Block.ofBytes_toBytes _ _ K V _ _ _ (g.size 0) x.items noBlock
    (fun i hi => (hfits i hi).writes) hmass' (by omega)
    (List.replicate (g.size 0 - (g.leaf x.items).toBytes.length) 0)
  rw [Tree.readLeaf, hread]
  simp only [bind, Except.bind, h.blockSize_eq, cell]
  rw [Bytes.fit_eq hbytes]
  exact hof

theorem readIndex_eq (h : g.On t) {level : Nat} {x : Subtree κ ν (level + 1)}
    (hcell : heap t (g.cell (level + 1) x).1 = some (g.cell (level + 1) x).2)
    (hfits : ∀ k ∈ x.keys, g.FitsKey k)
    (hlen : (x.children.map Subtree.number).length = x.keys.length + 1)
    (hmass : g.mass (level + 1) x ≤ g.room 1) :
    t.readIndex x.number = .ok (g.node x.keys (x.children.map Subtree.number)) := by
  have hsize := size_eq h.shape_valid 1
  have hlt := size_lt h.shape_valid 1
  have hmass' : 8 + Block.bytesOf K word32.toCodec
      (x.keys.zip (x.children.map Subtree.number)) ≤ g.size 1 := by
    rw [hsize, Index.bytesOf_zip (by omega)]
    exact Nat.add_le_add_left hmass 8
  have hbytes : (g.node x.keys (x.children.map Subtree.number)).toBytes.length ≤ g.size 1 := by
    rw [node, Index.ofParts, Block.length_toBytes]
    exact hmass'
  have hread : Store.read t.store .index x.number = .ok (g.cell (level + 1) x).2 := by
    refine LawfulStore.read_eq h.valid ?_
    rw [h.shape]
    exact hcell
  have hwrites := @Index.writesItem_zip _ K x.keys (x.children.map Subtree.number) fun k hk =>
    (hfits k hk).writes
  have hcount := Block.length_le_bytesOf hwrites
  have hof := @Block.ofBytes_toBytes _ _ K word32.toCodec _ _ _ (g.size 1)
    (x.keys.zip (x.children.map Subtree.number)) ((x.children.map Subtree.number).getLastD noBlock)
    hwrites hmass' (by omega)
    (List.replicate
      (g.size 1 - (g.node x.keys (x.children.map Subtree.number)).toBytes.length) 0)
  rw [Tree.readIndex, hread]
  simp only [bind, Except.bind, h.blockSize_eq, cell]
  rw [Bytes.fit_eq hbytes]
  exact hof

end Read

/-! ### Writing -/

section Write

variable {level : Nat} {n : BlockNumber} {data old : Bytes} {cells : List Cell} {R : Heap}

theorem On.isSome (h : g.On t) (hH : (heap t).Holds ((g.spot level n, old) :: cells) R) :
    (LawfulStore.heap t.store ((LawfulStore.shape t.store).home (kind level), n)).isSome := by
  rw [h.shape]
  exact Option.isSome_iff_exists.2 ⟨old, hH.1⟩

theorem write_run (h : g.On t) (hdata : data.length ≤ g.size level)
    (hH : (heap t).Holds ((g.spot level n, old) :: cells) R) :
    ∃ t', Tree.onStore (Store.write (kind level) n data) t = (.ok (), t') ∧ g.Stays t t' ∧
      (heap t').Holds ((g.spot level n, data.fit (g.size level)) :: cells) R := by
  obtain ⟨s, hrun, hvalid, hshape, hreserved, hheap⟩ := LawfulStore.write_ends h.valid
    (n := n) (by rw [h.shape]; exact hdata) (h.isSome hH)
  refine ⟨⟨s, t.descriptor, t.unsaved⟩, ?_, ⟨⟨hvalid, hshape.trans h.shape⟩, rfl, hreserved⟩, ?_⟩
  · simp only [Tree.onStore, hrun]
  · rw [heap, hheap, h.shape]
    exact hH.write _

theorem free_run (h : g.On t) (hH : (heap t).Holds ((g.spot level n, old) :: cells) R) :
    ∃ t', Tree.free (kind level) n t = (.ok (), t') ∧ g.Stays t t' ∧ (heap t').Holds cells R := by
  have hsome := h.isSome hH
  have hends := @LawfulStore.free_ends _ _ _ _ h.valid (kind level) n
  rw [Ends] at hends
  split at hends
  · next s hrun =>
    obtain ⟨hvalid, hshape, hreserved, hheap⟩ := hends
    refine ⟨⟨s, t.descriptor, t.unsaved⟩, ?_, ⟨⟨hvalid, hshape.trans h.shape⟩, rfl, hreserved⟩, ?_⟩
    · simp only [Tree.free, Tree.onStore, hrun]
    · rw [heap, hheap, h.shape]
      exact hH.2
  · rw [hends.2] at hsome
    cases hsome

/-- Freeing any block, whether it succeeds or not, leaves the store valid. -/
theorem free_on (h : g.On t) (kind : Pool) (n : BlockNumber) :
    g.On ((Tree.free kind n : Action (Tree σ K V) Unit) t).2 := by
  have hends := @LawfulStore.free_ends _ _ _ _ h.valid kind n
  rw [Ends] at hends
  rw [Tree.free, Tree.onStore]
  split at hends
  · next s hrun =>
    rw [hrun]
    exact ⟨hends.1, hends.2.1.trans h.shape⟩
  · next e s hrun =>
    rw [hrun]
    obtain ⟨rfl, -⟩ := hends
    exact ⟨h.valid, h.shape⟩

theorem add_ends (h : g.On t) (hdata : data.length ≤ g.size level)
    (hH : (heap t).Holds cells R) :
    Ends (Tree.onStore (Store.allocate (kind level) data)) t
      (fun e t' => IsFull (kind level) e ∧ t' = t)
      (fun n t' => n.toNat < g.shape.maxBlocks (kind level) ∧ g.Stays t t' ∧
        (heap t').Holds ((g.spot level n, data.fit (g.size level)) :: cells) R) := by
  have hends := LawfulStore.allocate_ends h.valid
    (by rw [h.shape]; exact hdata)
  rw [Ends] at hends
  simp only [Ends, Tree.onStore]
  split at hends
  · next n s hrun =>
    rw [hrun]
    obtain ⟨hn, hfresh, hvalid, hshape, hreserved, hheap⟩ := hends
    rw [h.shape] at hn hfresh hheap
    refine ⟨hn, ⟨⟨hvalid, hshape.trans h.shape⟩, rfl, hreserved⟩, ?_⟩
    rw [heap, hheap]
    exact hH.allocate hfresh _
  · next e s hrun =>
    rw [hrun]
    obtain ⟨rfl, rfl, -⟩ := hends
    exact ⟨⟨_, rfl⟩, rfl⟩

/-! ### Leaves and index blocks -/

theorem length_leaf (h : g.shape.Valid) {x : LeafNode κ ν} (hmass : g.mass 0 x ≤ g.room 0) :
    (g.leaf x.items).toBytes.length ≤ g.size 0 := by
  rw [leaf, Block.length_toBytes, size_eq h]
  exact Nat.add_le_add_left hmass 8

theorem length_node (h : g.shape.Valid) {level : Nat} {x : Subtree κ ν (level + 1)}
    (hlen : x.children.length = x.keys.length + 1) (hmass : g.mass (level + 1) x ≤ g.room 1) :
    (g.node x.keys (x.children.map Subtree.number)).toBytes.length ≤ g.size 1 := by
  rw [node, Index.ofParts, Block.length_toBytes, size_eq h, Index.bytesOf_zip (by simp [hlen])]
  exact Nat.add_le_add_left hmass 8

theorem writeLeaf_run (h : g.On t) {x : LeafNode κ ν} (hmass : g.mass 0 x ≤ g.room 0)
    (hH : (heap t).Holds ((g.spot 0 x.number, old) :: cells) R) :
    ∃ t', Tree.writeLeaf x.number (g.leaf x.items) t = (.ok (), t') ∧ g.Stays t t' ∧
      (heap t').Holds (g.cell 0 x :: cells) R :=
  write_run h (length_leaf h.shape_valid hmass) hH

theorem writeIndex_run (h : g.On t) {x : Subtree κ ν (level + 1)}
    (hlen : x.children.length = x.keys.length + 1) (hmass : g.mass (level + 1) x ≤ g.room 1)
    (hH : (heap t).Holds ((g.spot (level + 1) x.number, old) :: cells) R) :
    ∃ t', Tree.writeIndex x.number (g.node x.keys (x.children.map Subtree.number)) t =
        (.ok (), t') ∧ g.Stays t t' ∧
      (heap t').Holds (g.cell (level + 1) x :: cells) R :=
  write_run h (length_node h.shape_valid hlen hmass) hH

theorem addLeaf_ends (h : g.On t) {items : List (κ × ν)}
    (hmass : Block.bytesOf K V items ≤ g.room 0) (hH : (heap t).Holds cells R) :
    Ends (Tree.addLeaf (g.leaf items)) t (fun e t' => IsFull .leaf e ∧ t' = t)
      (fun n t' => n.toNat < g.shape.maxBlocks .leaf ∧ g.Stays t t' ∧
        (heap t').Holds (g.cell 0 ⟨n, items⟩ :: cells) R) :=
  add_ends h (length_leaf (x := ⟨0, items⟩) h.shape_valid hmass) hH

theorem addIndex_ends (h : g.On t) {keys : List κ} (children : List (Subtree κ ν level))
    (hlen : children.length = keys.length + 1) (hmass : Index.weight K keys ≤ g.room 1)
    (hH : (heap t).Holds cells R) :
    Ends (Tree.addIndex (g.node keys (children.map Subtree.number))) t
      (fun e t' => IsFull .index e ∧ t' = t)
      (fun n t' => n.toNat < g.shape.maxBlocks .index ∧ g.Stays t t' ∧
        (heap t').Holds (g.cell (level + 1) ⟨n, keys, children⟩ :: cells) R) :=
  add_ends h
    (length_node (x := ⟨0, keys, children⟩) h.shape_valid hlen hmass) hH

end Write

end Regime

end PagedMap
