/-
# Trees in stores that do the same

Two stores mirror each other if they answer alike and go on to do so, whatever blocks are
allocated, written and freed in both (`Mirrors`); only their reserves may differ. A tree
does not read the reserve once it is open, so trees in such stores do the same as well
(`Tree.update_agrees`, `Tree.truncate_agrees`). The relation also follows the reserve of
the first store: while the tree there has nothing unsaved, the reserve tells its
descriptor (`Tree.save_agrees`).

Key definitions: `Mirrors`, `Tree.told?`, `Tree.Mirrored`.
Key theorems: `Tree.save_agrees`, `Tree.update_agrees`, `Tree.truncate_agrees`.
-/
import PagedMap.Proofs.Agreement
import PagedMap.Proofs.Tree.Calls
import PagedMap.Proofs.Tree.Twin

namespace PagedMap

variable {σ τ κ ν α : Type} [Store σ] [Store τ] {K : OrderedCodec κ} {V : Codec ν}
  {R : Option Descriptor → σ → τ → Prop}

/-- Related stores read the same and do the same, and the reserve of the first tells the
descriptor by which they are related, if any. -/
structure Mirrors (R : Option Descriptor → σ → τ → Prop) : Prop where
  blockSize_eq : ∀ {d? s t}, R d? s t → Store.blockSize s = Store.blockSize t
  read_eq : ∀ {d? s t}, R d? s t → Store.read s = Store.read t
  isAllocated_eq : ∀ {d? s t}, R d? s t → Store.isAllocated s = Store.isAllocated t
  allocatedCount_eq : ∀ {d? s t}, R d? s t → Store.allocatedCount s = Store.allocatedCount t
  allocate_agrees : ∀ d? kind data,
    Agrees (R d?) (Store.allocate kind data) (Store.allocate kind data)
  write_agrees : ∀ d? kind n data,
    Agrees (R d?) (Store.write kind n data) (Store.write kind n data)
  free_agrees : ∀ d? kind n, Agrees (R d?) (Store.free kind n) (Store.free kind n)
  sync_agrees : ∀ d?, Agrees (R d?) Store.sync Store.sync
  /-- A descriptor is taken into both reserves. -/
  setReserve : ∀ {d? s t d bs}, R d? s t → d.encode = .ok bs →
    ∃ s' t', Store.setReserve bs s = (.ok (), s') ∧ Store.setReserve bs t = (.ok (), t') ∧
      R (some d) s' t'
  /-- What the reserve tells need not be known. -/
  forget : ∀ {d? s t}, R d? s t → R none s t

/-- What is known of the reserve does not matter for what the stores do. -/
theorem Mirrors.loose (h : Mirrors R) : Mirrors fun _ => R none where
  blockSize_eq := h.blockSize_eq
  read_eq := h.read_eq
  isAllocated_eq := h.isAllocated_eq
  allocatedCount_eq := h.allocatedCount_eq
  allocate_agrees _ := h.allocate_agrees none
  write_agrees _ := h.write_agrees none
  free_agrees _ := h.free_agrees none
  sync_agrees _ := h.sync_agrees none
  setReserve hs hencode := by
    obtain ⟨s', t', hset, hset', hs'⟩ := h.setReserve hs hencode
    exact ⟨s', t', hset, hset', h.forget hs'⟩
  forget := id

namespace Tree

variable {t : Tree σ K V} {u : Tree τ K V}

/-- The descriptor that the store tells if nothing is unsaved. -/
def told? (t : Tree σ K V) : Option Descriptor := if t.unsaved then none else some t.descriptor

/-- The trees have the same descriptor, and their stores mirror each other. -/
structure Mirrored (R : Option Descriptor → σ → τ → Prop) (t : Tree σ K V) (u : Tree τ K V) :
    Prop where
  descriptor_eq : t.descriptor = u.descriptor
  stores : R t.told? t.store u.store

theorem Mirrored.twin (h : t.Mirrored R u) (hR : Mirrors R) : t.Twin u :=
  ⟨h.descriptor_eq, hR.blockSize_eq h.stores, hR.read_eq h.stores, hR.isAllocated_eq h.stores,
    hR.allocatedCount_eq h.stores⟩

theorem Mirrored.loose (h : t.Mirrored R u) (hR : Mirrors R) : t.Mirrored (fun _ => R none) u :=
  ⟨h.descriptor_eq, hR.forget h.stores⟩

/-! ### Blocks and the descriptor -/

omit [Store σ] [Store τ] in
theorem onStore_agrees {act : Action σ α} {act' : Action τ α} (h : ∀ d?, Agrees (R d?) act act') :
    Agrees (Mirrored R (K := K) (V := V)) (onStore act) (onStore act') := by
  intro t u htu
  obtain ⟨hr, hR'⟩ := h t.told? t.store u.store htu.stores
  exact ⟨hr, htu.descriptor_eq, hR'⟩

variable (hR : Mirrors R)
include hR

theorem writeLeaf_agrees (n : BlockNumber) (leaf : Leaf K V) :
    Agrees (Mirrored R) (writeLeaf n leaf) (writeLeaf n leaf) :=
  onStore_agrees fun d? => hR.write_agrees d? .leaf n leaf.toBytes

theorem writeIndex_agrees (n : BlockNumber) (node : Index K) :
    Agrees (Mirrored R (V := V)) (writeIndex n node) (writeIndex n node) :=
  onStore_agrees fun d? => hR.write_agrees d? .index n node.toBytes

theorem addLeaf_agrees (leaf : Leaf K V) :
    Agrees (Mirrored R) (addLeaf leaf) (addLeaf leaf) :=
  onStore_agrees fun d? => hR.allocate_agrees d? .leaf leaf.toBytes

theorem addIndex_agrees (node : Index K) :
    Agrees (Mirrored R (V := V)) (addIndex node) (addIndex node) :=
  onStore_agrees fun d? => hR.allocate_agrees d? .index node.toBytes

theorem free_agrees (kind : Pool) (n : BlockNumber) :
    Agrees (Mirrored R (K := K) (V := V)) (free kind n) (free kind n) :=
  onStore_agrees fun d? => hR.free_agrees d? kind n

theorem setDescriptor_agrees (d : Descriptor) :
    Agrees (Mirrored R (K := K) (V := V)) (setDescriptor d) (setDescriptor d) :=
  agrees_modify fun _ _ h => ⟨rfl, hR.forget h.stores⟩

omit hR in
theorem save_eq (t : Tree σ K V) {bs : Bytes} {s : σ} (hencode : t.descriptor.encode = .ok bs)
    (hset : Store.setReserve bs t.store = (.ok (), s)) :
    save t = match Store.sync s with
      | (.ok (), s) => (.ok (), ⟨s, t.descriptor, false⟩)
      | (.error e, s) => (.error e, ⟨s, t.descriptor, t.unsaved⟩) := by
  have hon : onStore (Store.setReserve bs) t = (.ok (), { t with store := s }) := by
    rw [onStore, hset]
  have hsync : onStore (K := K) (V := V) Store.sync { t with store := s } =
      ((Store.sync s).1, { t with store := (Store.sync s).2 }) := rfl
  rw [save, bind_eq, get_eq]
  dsimp only
  rw [bind_eq, lift_eq, hencode]
  dsimp only
  rw [bind_eq, hon]
  dsimp only
  rw [bind_eq, hsync]
  cases Store.sync s with
  | mk r s' => cases r <;> rfl

/-- Saving tells both stores the descriptor. -/
theorem save_agrees : Agrees (Mirrored R (K := K) (V := V)) save save := by
  intro t u h
  cases hencode : t.descriptor.encode with
  | error e =>
    rw [save, save, bind_eq, bind_eq, get_eq, get_eq]
    dsimp only
    rw [bind_eq, bind_eq, lift_eq, lift_eq, ← h.descriptor_eq, hencode]
    exact ⟨rfl, h⟩
  | ok bs =>
    obtain ⟨s, s', hset, hset', hs⟩ := hR.setReserve h.stores hencode
    obtain ⟨hr, hsync⟩ := hR.sync_agrees _ s s' hs
    rw [save_eq t hencode hset, save_eq u (h.descriptor_eq ▸ hencode) hset']
    cases hrun : Store.sync s with
    | mk r s₁ =>
      cases hrun' : Store.sync s' with
      | mk r' s₁' =>
        rw [hrun, hrun'] at hr hsync
        obtain rfl : r = r' := hr
        cases r with
        | ok => exact ⟨rfl, h.descriptor_eq, hsync⟩
        | error e =>
          refine ⟨rfl, h.descriptor_eq, ?_⟩
          dsimp only [told?]
          split
          · exact hR.forget hsync
          · exact hsync

/-! ### Leaves -/

theorem tryShift_agrees (accept : Leaf K V → Leaf K V → Bool) (p : Neighbours (Leaf K V)) :
    Agrees (Mirrored R) (tryShift accept p) (tryShift accept p) := by
  rw [tryShift, tryShift]
  refine agrees_ite ?_ (agrees_pure _)
  refine (agrees_lift rfl).bind fun key => ?_
  refine (writeLeaf_agrees hR _ _).bind fun _ => ?_
  exact (writeLeaf_agrees hR _ _).bind fun _ => agrees_pure _

theorem tryMergeLeaves_agrees (p : Neighbours (Leaf K V)) :
    Agrees (Mirrored R) (tryMergeLeaves p) (tryMergeLeaves p) := by
  rw [tryMergeLeaves, tryMergeLeaves]
  refine agrees_ite ?_ (agrees_pure _)
  refine (agrees_lift rfl).bind fun merged => ?_
  refine (writeLeaf_agrees hR _ _).bind fun _ => ?_
  exact (free_agrees hR _ _).bind fun _ => agrees_pure _

theorem mendLeaf_agrees (p : Parent K) (n : BlockNumber) (leaf : Leaf K V) :
    Agrees (Mirrored R) (mendLeaf p n leaf) (mendLeaf p n leaf) := by
  rw [mendLeaf, mendLeaf]
  refine agrees_bind_get fun t u htu => ?_
  rw [(htu.twin hR).readLeaf_eq]
  refine (agrees_lift rfl).bind fun pairs => ?_
  refine (agrees_findSomeM? (tryShift_agrees hR _) pairs).bind fun
    | some _ => agrees_pure _
    | none => ?_
  refine (agrees_findSomeM? (tryMergeLeaves_agrees hR) pairs).bind fun
    | some _ => agrees_pure _
    | none => ?_
  refine (agrees_findSomeM? (tryShift_agrees hR _) pairs).bind fun
    | some _ => agrees_pure _
    | none => ?_
  exact (writeLeaf_agrees hR _ _).bind fun _ => agrees_pure _

theorem writeBackLeaf_agrees (parent? : Option (Parent K)) (n : BlockNumber) (leaf : Leaf K V) :
    Agrees (Mirrored R) (writeBackLeaf parent? n leaf) (writeBackLeaf parent? n leaf) := by
  unfold writeBackLeaf
  refine agrees_ite ?_ ?_
  · refine (agrees_lift rfl).bind fun upper => (agrees_lift rfl).bind fun key => ?_
    refine (writeLeaf_agrees hR _ _).bind fun _ => ?_
    exact (addLeaf_agrees hR _).bind fun _ => agrees_pure _
  · have hwrite : Agrees (Mirrored R)
        (do writeLeaf n leaf; return Demand.nothing : Action (Tree σ K V) Demand)
        (do writeLeaf n leaf; return Demand.nothing) :=
      (writeLeaf_agrees hR _ _).bind fun _ => agrees_pure _
    cases parent? with
    | some p => exact agrees_ite (mendLeaf_agrees hR p n leaf) hwrite
    | none => exact hwrite

/-! ### Index blocks -/

theorem tryRotate_agrees (parent : Index K) (accept : Index K → Index K → Bool)
    (p : Neighbours (Index K)) :
    Agrees (Mirrored R (V := V)) (tryRotate parent accept p) (tryRotate parent accept p) := by
  rw [tryRotate, tryRotate]
  refine (agrees_lift rfl).bind fun key => (agrees_lift rfl).bind fun r => ?_
  refine agrees_ite ?_ (agrees_pure _)
  refine (writeIndex_agrees hR _ _).bind fun _ => ?_
  exact (writeIndex_agrees hR _ _).bind fun _ => agrees_pure _

theorem tryMergeIndexes_agrees (parent : Index K) (p : Neighbours (Index K)) :
    Agrees (Mirrored R (V := V)) (tryMergeIndexes parent p) (tryMergeIndexes parent p) := by
  rw [tryMergeIndexes, tryMergeIndexes]
  refine (agrees_lift rfl).bind fun key => agrees_ite ?_ (agrees_pure _)
  refine (agrees_lift rfl).bind fun merged => ?_
  refine (writeIndex_agrees hR _ _).bind fun _ => ?_
  exact (free_agrees hR _ _).bind fun _ => agrees_pure _

theorem mendIndex_agrees (p : Parent K) (n : BlockNumber) (node : Index K) :
    Agrees (Mirrored R (V := V)) (mendIndex p n node) (mendIndex p n node) := by
  rw [mendIndex, mendIndex]
  refine agrees_bind_get fun t u htu => ?_
  rw [(htu.twin hR).readIndex_eq]
  refine (agrees_lift rfl).bind fun pairs => ?_
  refine (agrees_findSomeM? (tryRotate_agrees hR _ _) pairs).bind fun
    | some _ => agrees_pure _
    | none => ?_
  refine (agrees_findSomeM? (tryMergeIndexes_agrees hR _) pairs).bind fun
    | some _ => agrees_pure _
    | none => ?_
  refine (agrees_findSomeM? (tryRotate_agrees hR _ _) pairs).bind fun
    | some _ => agrees_pure _
    | none => ?_
  exact (writeIndex_agrees hR _ _).bind fun _ => agrees_pure _

theorem descendRoot_agrees : ∀ levels,
    Agrees (Mirrored R (K := K) (V := V)) (descendRoot levels) (descendRoot levels)
  | 0 => agrees_pure _
  | levels + 1 => by
    rw [descendRoot, descendRoot]
    refine agrees_bind_get fun t u htu => ?_
    rw [(htu.twin hR).readIndex_eq, htu.descriptor_eq]
    refine (agrees_lift rfl).bind fun root => agrees_ite ?_ (agrees_pure _)
    refine (free_agrees hR _ _).bind fun _ => ?_
    exact (setDescriptor_agrees hR _).bind fun _ => descendRoot_agrees levels

theorem lowerRoot_agrees (n child : BlockNumber) :
    Agrees (Mirrored R (K := K) (V := V)) (lowerRoot n child) (lowerRoot n child) := by
  rw [lowerRoot, lowerRoot]
  refine (free_agrees hR _ _).bind fun _ => agrees_bind_get fun t u htu => ?_
  rw [htu.descriptor_eq]
  exact (setDescriptor_agrees hR _).bind fun _ => descendRoot_agrees hR _

theorem writeBackIndex_agrees (parent? : Option (Parent K)) (n : BlockNumber) (node : Index K) :
    Agrees (Mirrored R (V := V)) (writeBackIndex parent? n node)
      (writeBackIndex parent? n node) := by
  unfold writeBackIndex
  refine agrees_ite ?_ ?_
  · refine (agrees_lift rfl).bind fun halves => ?_
    refine (writeIndex_agrees hR _ _).bind fun _ => ?_
    exact (addIndex_agrees hR _).bind fun _ => agrees_pure _
  · have hwrite : Agrees (Mirrored R)
        (do writeIndex n node; return Demand.nothing : Action (Tree σ K V) Demand)
        (do writeIndex n node; return Demand.nothing) :=
      (writeIndex_agrees hR _ _).bind fun _ => agrees_pure _
    cases parent? with
    | some p => exact agrees_ite (mendIndex_agrees hR p n node) hwrite
    | none => exact agrees_ite ((lowerRoot_agrees hR _ _).bind fun _ => agrees_pure _) hwrite

/-! ### The whole way -/

theorem countChange_agrees (size : SizeChange) :
    Agrees (Mirrored R (K := K) (V := V)) (countChange size) (countChange size) := by
  rw [countChange, countChange]
  refine agrees_bind_get fun t u htu => ?_
  rw [htu.descriptor_eq]
  cases size <;> exact setDescriptor_agrees hR _

theorem updateBelow_agrees (probe : Bytes) (edit : Leaf K V → Except Error (LeafEdit K V α)) :
    ∀ levels parent? n, Agrees (Mirrored R) (updateBelow probe edit levels parent? n)
      (updateBelow probe edit levels parent? n)
  | 0, parent?, n => by
    rw [updateBelow, updateBelow]
    refine agrees_bind_get fun t u htu => ?_
    rw [(htu.twin hR).readLeaf_eq]
    refine (agrees_lift rfl).bind fun leaf => (agrees_lift rfl).bind fun done => ?_
    cases done with
    | keep answer => exact agrees_pure _
    | change leaf size answer =>
      refine (countChange_agrees hR size).bind fun _ => ?_
      exact (writeBackLeaf_agrees hR _ _ _).bind fun _ => agrees_pure _
  | levels + 1, parent?, n => by
    rw [updateBelow, updateBelow]
    refine agrees_bind_get fun t u htu => ?_
    rw [(htu.twin hR).readIndex_eq]
    refine (agrees_lift rfl).bind fun node => (agrees_lift rfl).bind fun place => ?_
    refine (agrees_lift rfl).bind fun child => ?_
    refine (updateBelow_agrees probe edit levels _ child).bind ?_
    rintro ⟨demand, answer⟩
    cases demand with
    | nothing => exact agrees_pure _
    | _ =>
      refine (agrees_lift rfl).bind fun node => ?_
      exact (writeBackIndex_agrees hR _ _ _).bind fun _ => agrees_pure _

theorem raiseRoot_agrees (key : Bytes) (right : BlockNumber) :
    Agrees (Mirrored R (K := K) (V := V)) (raiseRoot key right) (raiseRoot key right) := by
  rw [raiseRoot, raiseRoot]
  refine agrees_bind_get fun t u htu => ?_
  rw [(htu.twin hR).emptyIndex_eq, htu.descriptor_eq]
  refine (agrees_lift rfl).bind fun root => (addIndex_agrees hR _).bind fun n => ?_
  refine agrees_bind_get fun t u htu => ?_
  rw [htu.descriptor_eq]
  exact setDescriptor_agrees hR _

/-- What is done to a leaf is done alike in both trees. -/
theorem update_agrees (probe : Bytes) (edit : Leaf K V → Except Error (LeafEdit K V α)) :
    Agrees (Mirrored R) (update probe edit) (update probe edit) := by
  rw [update, update]
  refine agrees_bind_get fun t u htu => ?_
  rw [htu.descriptor_eq]
  refine (updateBelow_agrees hR probe edit _ _ _).bind ?_
  rintro ⟨demand, answer⟩
  cases demand with
  | nothing => exact agrees_pure _
  | split key right => exact (raiseRoot_agrees hR key right).bind fun _ => agrees_pure _
  | _ => exact agrees_throw _

theorem truncate_agrees :
    Agrees (Mirrored R (K := K) (V := V)) truncate truncate := by
  rw [truncate, truncate]
  refine agrees_bind_get fun t u htu => ?_
  rw [(htu.twin hR).blocks_eq, (htu.twin hR).emptyLeaf_eq]
  refine (agrees_lift rfl).bind ?_
  rintro ⟨indexBlocks, leaves⟩
  refine (agrees_forM (free_agrees hR .index) indexBlocks).bind fun _ => ?_
  refine (agrees_forM (free_agrees hR .leaf) leaves).bind fun _ => ?_
  refine (addLeaf_agrees hR _).bind fun root => ?_
  exact (setDescriptor_agrees hR _).bind fun _ => save_agrees hR

end Tree

end PagedMap
