/-
# Opening a tree in a store that has none

In a store whose reserve tells of no tree, opening makes one that is a single empty
leaf and writes its descriptor into the reserve, unless the leaves' pool is full
(`openDescriptor_new`). What the store held before is the rest beside every tree that is
reachable from there (`Regime.reachable_stores`).

Key definitions: `IsBlank`, `Tree.IsNew`, `Regime.ofShape`.
Key theorems: `openDescriptor_new`, `Regime.openDescriptor_ends`,
`Regime.reachable_stores`.
-/
import PagedMap.Proofs.Tree.Calls

namespace PagedMap

variable {σ κ ν : Type} [Store σ] {K : OrderedCodec κ} {V : Codec ν}

/-- The reserve of the store tells of no tree. -/
def IsBlank (s : σ) : Prop := ∃ bs, Store.reserve s = .ok bs ∧ Descriptor.decode bs = .ok none

section New

variable [LawfulStore σ] {s : σ}

/-- The tree is a single empty leaf in a block that was free in a store, its descriptor is at
the beginning of the reserve, and the store is otherwise as it was. -/
structure Tree.IsNew (s : σ) (t : Tree σ K V) : Prop where
  valid : LawfulStore.Valid t.store
  shape_eq : LawfulStore.shape t.store = LawfulStore.shape s
  descriptor_eq : t.descriptor = .empty t.descriptor.root
  root_lt : t.descriptor.root.toNat < (LawfulStore.shape s).maxBlocks .leaf
  root_free : LawfulStore.heap s (.leaf, t.descriptor.root) = none
  heap_eq : LawfulStore.heap t.store =
    Function.update (LawfulStore.heap s) (.leaf, t.descriptor.root)
      (some ((Block.empty K V (Store.blockSize s .leaf)).toBytes.fit (Store.blockSize s .leaf)))
  reserved_eq : ∃ written, t.descriptor.encode = .ok written ∧
    LawfulStore.reserved t.store = written ++ (LawfulStore.reserved s).drop written.length

/-- A blank store gets a new tree, unless its leaves are all taken. -/
theorem openDescriptor_new (K : OrderedCodec κ) (V : Codec ν) (hs : LawfulStore.Valid s)
    (hblank : IsBlank s) :
    Ends (Tree.openDescriptor K V) s
      (fun e s' => s' = s ∧ e = .outOfSpace .leaf ((LawfulStore.shape s).maxBlocks .leaf) ∧
        ∀ n : BlockNumber, n.toNat < (LawfulStore.shape s).maxBlocks .leaf →
          (LawfulStore.heap s (.leaf, n)).isSome)
      fun d s' => (⟨s', d, false⟩ : Tree σ K V).IsNew s := by
  obtain ⟨bs, hreserve, hdecode⟩ := hblank
  have hv := LawfulStore.shape_valid hs
  have hlen : (Block.empty K V (Store.blockSize s .leaf)).toBytes.length ≤
      (LawfulStore.shape s).blockSize .leaf :=
    Nat.le_trans (by simp [Block.toBytes, Block.empty, minBlockSize]) (hv.minBlockSize_le .leaf)
  rw [Tree.openDescriptor]
  refine ends_bind_get ?_
  rw [if_neg (by
    rw [LawfulStore.reserveSize_eq]
    exact Nat.not_lt.2 hv.descriptorSize_le)]
  refine ends_bind_lift hreserve (ends_bind_lift hdecode ?_)
  refine (LawfulStore.allocate_ends hs hlen).bind ?_
  rintro n s₁ ⟨hn, hfree, hvalid, hshape, hreserved, hheap⟩
  have hn' : n.toNat ≤ maxInt32 := Nat.le_trans (Nat.le_of_lt hn) (hv.maxBlocks_le .leaf)
  obtain ⟨written, hencode⟩ := Descriptor.exists_encode_empty hn'
  have hwritten : written.length ≤ (LawfulStore.shape s₁).reserveSize := by
    rw [Descriptor.length_of_encode hencode, hshape]
    exact hv.descriptorSize_le
  obtain ⟨s₂, hset, hvalid', hshape', hheap', hreserved'⟩ :=
    LawfulStore.setReserve_ends hvalid hwritten
  refine ends_bind_lift hencode (ends_bind_of_ok hset (ends_bind_of_ok (LawfulStore.sync_eq s₂)
    (ends_pure ⟨hvalid', hshape'.trans hshape, rfl, hn, hfree, hheap'.trans ?_, written, hencode,
      hreserved ▸ hreserved'⟩)))
  rw [hheap, LawfulStore.blockSize_eq]
  rfl

end New

namespace Regime

variable [LawfulStore σ] [LinearOrder κ] {s : σ} {g : Regime K V}

/-- The sizes of a store's blocks. -/
def ofShape (K : OrderedCodec κ) (V : Codec ν) (shape : Shape) : Regime K V := ⟨shape, false⟩

/-- A new tree stores nothing beside what the store held before. -/
theorem stores_of_isNew {t : Tree σ K V} (hg : LawfulStore.shape s = g.shape) (h : t.IsNew s) :
    g.Stores [] (LawfulStore.heap s) t := by
  refine ⟨holding_empty ⟨h.valid, h.shape_eq.trans hg⟩ h.descriptor_eq ?_, ?_⟩
  · rw [heap, h.heap_eq, LawfulStore.blockSize_eq, hg]
    exact Heap.Holds.allocate (Heap.holds_nil.2 rfl) h.root_free _
  · rw [h.descriptor_eq]
    rfl

/-- A blank store gets an empty tree, unless its leaves are all taken. -/
theorem openDescriptor_ends (hs : LawfulStore.Valid s) (hg : LawfulStore.shape s = g.shape)
    (hblank : IsBlank s) :
    Ends (Tree.openDescriptor K V) s
      (fun e _ => IsOutOfSpace e ∧ ∀ n : BlockNumber,
        n.toNat < (LawfulStore.shape s).maxBlocks .leaf → (LawfulStore.heap s (.leaf, n)).isSome)
      fun d s' => g.Stores [] (LawfulStore.heap s) (⟨s', d, false⟩ : Tree σ K V) := by
  refine (openDescriptor_new K V hs hblank).mono ?_ fun _ _ hnew => stores_of_isNew hg hnew
  rintro e s' ⟨-, rfl, hfull⟩
  exact ⟨trivial, hfull⟩

/-- A tree opens in a blank store where a leaf is free. -/
theorem exists_ofStore (K : OrderedCodec κ) (V : Codec ν) {n : BlockNumber}
    (hs : LawfulStore.Valid s) (hblank : IsBlank s)
    (hn : n.toNat < (LawfulStore.shape s).maxBlocks .leaf)
    (hfree : LawfulStore.heap s (.leaf, n) = none) :
    ∃ (t : Tree σ K V) (s' : σ), Tree.ofStore K V s = (.ok t, s') := by
  have hends := openDescriptor_ends (g := ofShape K V (LawfulStore.shape s)) hs rfl hblank
  rw [Ends] at hends
  rw [Tree.ofStore]
  split at hends
  · next hrun =>
    rw [hrun]
    exact ⟨_, _, rfl⟩
  · have hfull := hends.2 n hn
    rw [hfree] at hfull
    cases hfull

/-- A tree that is opened in a blank store stores nothing. -/
theorem ofStore_stores_of {t : Tree σ K V} {s' : σ} (hs : LawfulStore.Valid s)
    (hg : LawfulStore.shape s = g.shape) (hblank : IsBlank s)
    (h : Tree.ofStore K V s = (.ok t, s')) : g.Stores [] (LawfulStore.heap s) t := by
  have hends := openDescriptor_ends hs hg hblank
  rw [Ends] at hends
  rw [Tree.ofStore] at h
  split at h
  · next d s₁ hrun =>
    rw [hrun] at hends
    obtain ⟨hopen, -⟩ := Prod.mk.inj h
    obtain rfl := Except.ok.inj hopen
    exact hends
  · cases h

theorem ofStore_stores {t : Tree σ K V} {s' : σ} (hs : LawfulStore.Valid s) (hblank : IsBlank s)
    (h : Tree.ofStore K V s = (.ok t, s')) :
    (ofShape K V (LawfulStore.shape s)).Stores [] (LawfulStore.heap s) t :=
  ofStore_stores_of hs rfl hblank h

/-- Every tree that is reachable from a blank store stores some items beside what the
store held before. -/
theorem reachable_stores [K.Lawful] [V.Lawful] {t : Tree σ K V} (hs : LawfulStore.Valid s)
    (hblank : IsBlank s) (h : Tree.Reachable K V s t) :
    ∃ items, (ofShape K V (LawfulStore.shape s)).Stores items (LawfulStore.heap s) t := by
  induction h with
  | opened hopen => exact ⟨[], ofStore_stores hs hblank hopen⟩
  | called c _ hcall ih =>
    obtain ⟨items, hstores⟩ := ih
    obtain ⟨items', -, hstores'⟩ := (call_ends rfl hstores c).of_ok hcall
    exact ⟨items', hstores'⟩

end Regime

end PagedMap
