/-
# Trees that read the same

What a tree answers is computed from its descriptor and from what it reads in its store.
So two trees that have the same descriptor and read the same (`Tree.Twin`) give the same
answers, whatever their stores are and whatever state they are in (`Tree.Twin.same`).

Key definitions: `Tree.Twin`, `Tree.Same`.
Key theorem: `Tree.Twin.same`.
-/
import PagedMap.Tree.Rank
import PagedMap.Tree.Scan
import PagedMap.Tree.Verify

namespace PagedMap.Tree

variable {σ τ κ ν : Type} [Store σ] [Store τ] {K : OrderedCodec κ} {V : Codec ν}

/-- The trees have the same descriptor, and read the same in their stores. -/
structure Twin (t : Tree σ K V) (u : Tree τ K V) : Prop where
  descriptor_eq : t.descriptor = u.descriptor
  blockSize_eq : Store.blockSize t.store = Store.blockSize u.store
  read_eq : Store.read t.store = Store.read u.store
  isAllocated_eq : Store.isAllocated t.store = Store.isAllocated u.store
  allocatedCount_eq : Store.allocatedCount t.store = Store.allocatedCount u.store

/-- The trees have the same root and depth and as many entries and blocks, and every
question gets the same answer from both. -/
structure Same (t : Tree σ K V) (u : Tree τ K V) : Prop where
  root_eq : t.descriptor.root = u.descriptor.root
  leafLevel_eq : t.descriptor.leafLevel = u.descriptor.leafLevel
  length_eq : t.length = u.length
  allocatedCount_eq : ∀ kind,
    Store.allocatedCount t.store kind = Store.allocatedCount u.store kind
  isAllocated_eq : ∀ kind n, Store.isAllocated t.store kind n = Store.isAllocated u.store kind n
  read_eq : ∀ kind n, Store.read t.store kind n = Store.read u.store kind n
  blocks_eq : t.blocks = u.blocks
  get?_eq : ∀ k, t.get? k = u.get? k
  getItem?_eq : ∀ k, t.getItem? k = u.getItem? k
  contains_eq : ∀ k, t.contains k = u.contains k
  scan_eq : ∀ descending lower upper,
    t.scan descending lower upper = u.scan descending lower upper
  rank_eq : ∀ k, t.rank k = u.rank k
  keyAt?_eq : ∀ i, t.keyAt? i = u.keyAt? i
  maxEntrySize_eq : t.maxEntrySize = u.maxEntrySize
  maxKeySize_eq : t.maxKeySize = u.maxKeySize
  verify_eq : t.verify = u.verify

namespace Twin

variable {t : Tree σ K V} {u : Tree τ K V} (h : t.Twin u)
include h

/-! ### Blocks -/

theorem readLeaf_eq : t.readLeaf = u.readLeaf := by
  funext n
  rw [readLeaf, readLeaf, h.read_eq, h.blockSize_eq]

theorem readIndex_eq : t.readIndex = u.readIndex := by
  funext n
  rw [readIndex, readIndex, h.read_eq, h.blockSize_eq]

theorem emptyLeaf_eq : t.emptyLeaf = u.emptyLeaf := by
  rw [emptyLeaf, emptyLeaf, h.blockSize_eq]

theorem emptyIndex_eq : t.emptyIndex = u.emptyIndex := by
  rw [emptyIndex, emptyIndex, h.blockSize_eq]

theorem length_eq : t.length = u.length := by
  rw [length, length, h.descriptor_eq]

theorem isEmpty_eq : t.isEmpty = u.isEmpty := by
  rw [isEmpty, isEmpty, h.descriptor_eq]

/-! ### Ways down -/

theorem leafBelow_eq (probe : Bytes) : ∀ levels, t.leafBelow probe levels = u.leafBelow probe levels
  | 0 => rfl
  | levels + 1 => by
    funext n
    rw [leafBelow, leafBelow, h.readIndex_eq, leafBelow_eq probe levels]

theorem leafOf_eq : t.leafOf = u.leafOf := by
  funext probe
  rw [leafOf, leafOf, h.leafBelow_eq, h.descriptor_eq]

theorem endBelow_eq (last : Bool) : ∀ levels, t.endBelow last levels = u.endBelow last levels
  | 0 => rfl
  | levels + 1 => by
    funext n
    rw [endBelow, endBelow, h.readIndex_eq, endBelow_eq last levels]

theorem endLeaf_eq : t.endLeaf = u.endLeaf := by
  funext last
  rw [endLeaf, endLeaf, h.endBelow_eq, h.descriptor_eq]

theorem blocksBelow_eq : ∀ levels, t.blocksBelow levels = u.blocksBelow levels
  | 0 => rfl
  | levels + 1 => by
    funext n
    rw [blocksBelow, blocksBelow, h.readIndex_eq, blocksBelow_eq levels]

theorem blocks_eq : t.blocks = u.blocks := by
  rw [Tree.blocks_eq, Tree.blocks_eq, h.blocksBelow_eq, h.descriptor_eq]

theorem leaves_eq : t.leaves = u.leaves := by
  rw [leaves, leaves, h.blocks_eq]

/-! ### Looking up -/

theorem locate_eq : t.locate = u.locate := by
  funext k
  rw [locate, locate, h.leafOf_eq, h.readLeaf_eq]

theorem get?_eq (k : κ) : t.get? k = u.get? k := by
  rw [get?, get?, h.locate_eq]

theorem getItem?_eq (k : κ) : t.getItem? k = u.getItem? k := by
  rw [getItem?, getItem?, h.locate_eq]

theorem contains_eq (k : κ) : t.contains k = u.contains k := by
  rw [contains, contains, h.locate_eq]

/-! ### Limits -/

theorem maxEntrySize_eq : t.maxEntrySize = u.maxEntrySize := by
  rw [maxEntrySize, maxEntrySize, h.blockSize_eq]

theorem maxKeySize_eq : t.maxKeySize = u.maxKeySize := by
  rw [maxKeySize, maxKeySize, h.blockSize_eq, h.maxEntrySize_eq]

theorem encodeEntry_eq : t.encodeEntry = u.encodeEntry := by
  have hcheck : t.checkSize = u.checkSize := by
    funext key entry
    rw [checkSize, checkSize, h.maxEntrySize_eq, h.maxKeySize_eq]
  funext k v
  rw [encodeEntry, encodeEntry, hcheck]

/-! ### Ranks -/

theorem countBefore_eq (target : BlockNumber) :
    ∀ leaves, t.countBefore target leaves = u.countBefore target leaves
  | [] => rfl
  | n :: rest => by
    rw [countBefore, countBefore, h.readLeaf_eq, countBefore_eq target rest]

theorem rank_eq (k : κ) : t.rank k = u.rank k := by
  have hcount : t.countBefore = u.countBefore :=
    funext fun target => funext (h.countBefore_eq target)
  rw [rank, rank, h.leafOf_eq, h.readLeaf_eq, h.leaves_eq, hcount, h.length_eq]

theorem keyIn?_eq : ∀ leaves, t.keyIn? leaves = u.keyIn? leaves
  | [] => rfl
  | n :: rest => by
    funext i
    rw [keyIn?, keyIn?, h.readLeaf_eq, keyIn?_eq rest]

theorem keyAt?_eq (i : Nat) : t.keyAt? i = u.keyAt? i := by
  have hkey : t.keyIn? = u.keyIn? := funext h.keyIn?_eq
  rw [keyAt?, keyAt?, h.length_eq, h.leaves_eq, hkey]

/-! ### Scans -/

theorem scanLeaves_eq (descending : Bool) (lower upper : Bound κ) :
    ∀ leaves, t.scanLeaves descending lower upper leaves =
      u.scanLeaves descending lower upper leaves
  | [] => rfl
  | n :: rest => by
    rw [scanLeaves, scanLeaves, openLeaf, openLeaf, h.readLeaf_eq,
      scanLeaves_eq descending lower upper rest]

theorem scan_eq (descending : Bool) (lower upper : Bound κ) :
    t.scan descending lower upper = u.scan descending lower upper := by
  have hscan : t.scanLeaves descending lower upper = u.scanLeaves descending lower upper :=
    funext (h.scanLeaves_eq descending lower upper)
  rw [scan, scan, startLeaf, startLeaf, h.leaves_eq, h.leafOf_eq, h.endLeaf_eq, hscan]

/-! ### Checking -/

theorem verifyBelow_eq : ∀ levels, t.verifyBelow levels = u.verifyBelow levels
  | 0 => by
    funext n r
    rw [verifyBelow, verifyBelow, checkAllocated, checkAllocated, h.isAllocated_eq, h.readLeaf_eq]
  | levels + 1 => by
    funext n r
    rw [verifyBelow, verifyBelow, checkAllocated, checkAllocated, h.isAllocated_eq, h.readIndex_eq,
      verifyBelow_eq levels]

theorem verify_eq : t.verify = u.verify := by
  rw [verify, verify, h.verifyBelow_eq, h.descriptor_eq, h.length_eq]

/-- Trees that read the same cannot be told apart by any question. -/
theorem same : t.Same u where
  root_eq := congrArg Descriptor.root h.descriptor_eq
  leafLevel_eq := congrArg Descriptor.leafLevel h.descriptor_eq
  length_eq := h.length_eq
  allocatedCount_eq := congrFun h.allocatedCount_eq
  isAllocated_eq kind := congrFun (congrFun h.isAllocated_eq kind)
  read_eq kind := congrFun (congrFun h.read_eq kind)
  blocks_eq := h.blocks_eq
  get?_eq := h.get?_eq
  getItem?_eq := h.getItem?_eq
  contains_eq := h.contains_eq
  scan_eq := h.scan_eq
  rank_eq := h.rank_eq
  keyAt?_eq := h.keyAt?_eq
  maxEntrySize_eq := h.maxEntrySize_eq
  maxKeySize_eq := h.maxKeySize_eq
  verify_eq := h.verify_eq

end Twin

end PagedMap.Tree
