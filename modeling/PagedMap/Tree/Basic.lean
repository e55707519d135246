/-
# Trees in a store

A tree is a search tree of blocks. Its leaves hold the entries; above them lie
levels of index blocks, whose separators tell under which child a key belongs.
All leaves have the same depth, which the descriptor records; so the way down
from the root to a leaf is a recursion on the number of index levels.

Key definitions: `Tree`, `Tree.ofStore`, `Tree.leafOf`, `Tree.blocksBelow`,
`Tree.blocks`, `Tree.get?`, `Tree.save`.
Key theorem: `Tree.blocks_eq`.
-/
import PagedMap.Block.Cursor
import PagedMap.Block.Index
import PagedMap.Descriptor
import PagedMap.Store.Basic

namespace PagedMap

/-- A tree in a store, whose keys and values are written by the given codecs. -/
structure Tree (σ : Type) {κ ν : Type} (K : OrderedCodec κ) (V : Codec ν) where
  store : σ
  descriptor : Descriptor
  /-- Whether the descriptor has changed since it was written to the store. -/
  unsaved : Bool

namespace Tree

variable {σ κ ν : Type} [Store σ] {K : OrderedCodec κ} {V : Codec ν}

/-- Does something with the store. -/
def onStore {α : Type} (act : Action σ α) : Action (Tree σ K V) α := fun t =>
  match t with
  | ⟨store, descriptor, unsaved⟩ =>
    let (r, store) := act store
    (r, ⟨store, descriptor, unsaved⟩)

/-- Replaces the descriptor, which is then unsaved. -/
def setDescriptor (d : Descriptor) : Action (Tree σ K V) Unit :=
  modify fun t => { t with descriptor := d, unsaved := true }

/-! ## Opening -/

/-- Finds the descriptor of the tree in a store. A store whose reserve was never
written gets an empty tree. -/
def openDescriptor (K : OrderedCodec κ) (V : Codec ν) : Action σ Descriptor := do
  let s ← get
  if Store.reserveSize s < descriptorSize then
    throw (.invalidArgument (.reserveTooSmall (Store.reserveSize s)))
  let bs ← Store.reserve s
  match ← Descriptor.decode bs with
  | some d =>
    let kind := if d.leafLevel < 0 then Pool.leaf else Pool.index
    if Store.isAllocated s kind d.root then return d
    else throw (.corruption (.rootNotAllocated d.root))
  | none =>
    let leaf := Block.empty K V (Store.blockSize s .leaf)
    let root ← Store.allocate .leaf leaf.toBytes
    let d := Descriptor.empty root
    let written ← d.encode
    Store.setReserve written
    Store.sync
    return d

/-- Opens the tree in a store, and gives the store as it is then. -/
def ofStore (K : OrderedCodec κ) (V : Codec ν) (s : σ) : Except Error (Tree σ K V) × σ :=
  match openDescriptor K V s with
  | (.ok d, s) => (.ok ⟨s, d, false⟩, s)
  | (.error e, s) => (.error e, s)

/-! ## Blocks -/

/-- An empty leaf. -/
def emptyLeaf (t : Tree σ K V) : Leaf K V := Block.empty K V (Store.blockSize t.store .leaf)

/-- An index block without separators. -/
def emptyIndex (t : Tree σ K V) : Index K := Index.empty K (Store.blockSize t.store .index)

/-- Reads a leaf. -/
def readLeaf (t : Tree σ K V) (n : BlockNumber) : Except Error (Leaf K V) := do
  let bs ← Store.read t.store .leaf n
  Block.ofBytes K V bs (Store.blockSize t.store .leaf)

/-- Reads an index block. -/
def readIndex (t : Tree σ K V) (n : BlockNumber) : Except Error (Index K) := do
  let bs ← Store.read t.store .index n
  Block.ofBytes K word32.toCodec bs (Store.blockSize t.store .index)

/-- Writes a leaf. -/
def writeLeaf (n : BlockNumber) (leaf : Leaf K V) : Action (Tree σ K V) Unit :=
  onStore (Store.write .leaf n leaf.toBytes)

/-- Writes an index block. -/
def writeIndex (n : BlockNumber) (node : Index K) : Action (Tree σ K V) Unit :=
  onStore (Store.write .index n node.toBytes)

/-- Allocates and writes a leaf. -/
def addLeaf (leaf : Leaf K V) : Action (Tree σ K V) BlockNumber :=
  onStore (Store.allocate .leaf leaf.toBytes)

/-- Allocates and writes an index block. -/
def addIndex (node : Index K) : Action (Tree σ K V) BlockNumber :=
  onStore (Store.allocate .index node.toBytes)

/-- Frees a block. -/
def free (kind : Pool) (n : BlockNumber) : Action (Tree σ K V) Unit :=
  onStore (Store.free kind n)

/-! ## Ways down -/

/-- The leaf to which an encoded key belongs, below a block with `levels` index
levels. -/
def leafBelow (t : Tree σ K V) (probe : Bytes) : Nat → BlockNumber → Except Error BlockNumber
  | 0, n => .ok n
  | levels + 1, n => do
    let node ← t.readIndex n
    let place ← node.searchBytes probe
    let child ← Index.child node place.child
    leafBelow t probe levels child

/-- The leaf to which an encoded key belongs. -/
def leafOf (t : Tree σ K V) (probe : Bytes) : Except Error BlockNumber :=
  t.leafBelow probe t.descriptor.indexLevels t.descriptor.root

/-- The first or the last leaf below a block with `levels` index levels. -/
def endBelow (t : Tree σ K V) (last : Bool) : Nat → BlockNumber → Except Error BlockNumber
  | 0, n => .ok n
  | levels + 1, n => do
    let node ← t.readIndex n
    let child ← Index.child node (if last then node.length else 0)
    endBelow t last levels child

/-- The first or the last leaf. -/
def endLeaf (t : Tree σ K V) (last : Bool) : Except Error BlockNumber :=
  t.endBelow last t.descriptor.indexLevels t.descriptor.root

/-- The index blocks and the leaves at and below a block with `levels` index
levels: an index block before those under it, leaves in the order of keys. -/
def blocksBelow (t : Tree σ K V) :
    Nat → BlockNumber → Except Error (List BlockNumber × List BlockNumber)
  | 0, n => .ok ([], [n])
  | levels + 1, n => do
    let node ← t.readIndex n
    let children ← Index.children node
    let below ← children.mapM (blocksBelow t levels)
    return (n :: below.flatMap Prod.fst, below.flatMap Prod.snd)

/-- Puts the index blocks and the leaves at and below a block in front of those
met before, each list with the last first. -/
def collect (t : Tree σ K V) :
    Nat → BlockNumber → List BlockNumber × List BlockNumber →
      Except Error (List BlockNumber × List BlockNumber)
  | 0, n, met => .ok (met.1, n :: met.2)
  | levels + 1, n, met => do
    let node ← t.readIndex n
    let children ← Index.children node
    children.foldlM (fun met child => collect t levels child met) (n :: met.1, met.2)

/-- All index blocks and all leaves, in the order of `blocksBelow`. They are
collected on one way through the tree. -/
def blocks (t : Tree σ K V) : Except Error (List BlockNumber × List BlockNumber) :=
  (t.collect t.descriptor.indexLevels t.descriptor.root ([], [])).map fun met =>
    (met.1.reverse, met.2.reverse)

/-- Collecting gives what is below a block, with the last first. -/
theorem collect_eq (t : Tree σ K V) (levels : Nat) :
    ∀ (n : BlockNumber) (met : List BlockNumber × List BlockNumber),
      t.collect levels n met =
        (t.blocksBelow levels n).map fun b => (b.1.reverse ++ met.1, b.2.reverse ++ met.2) := by
  induction levels with
  | zero => intro n met; rfl
  | succ levels ih =>
    have fold : ∀ (children : List BlockNumber) (met : List BlockNumber × List BlockNumber),
        children.foldlM (fun met child => t.collect levels child met) met =
          (children.mapM (t.blocksBelow levels)).map fun below =>
            ((below.flatMap Prod.fst).reverse ++ met.1,
              (below.flatMap Prod.snd).reverse ++ met.2) := by
      intro children
      induction children with
      | nil => intro met; rfl
      | cons c children ihc =>
        intro met
        rw [List.foldlM_cons, List.mapM_cons, ih c met]
        cases t.blocksBelow levels c with
        | error e => rfl
        | ok b =>
          refine (ihc (b.1.reverse ++ met.1, b.2.reverse ++ met.2)).trans ?_
          simp only [bind, Except.bind]
          cases children.mapM (t.blocksBelow levels) with
          | error e => rfl
          | ok below => simp [Except.map, pure, Except.pure]
    intro n met
    simp only [collect, blocksBelow]
    cases t.readIndex n with
    | error e => rfl
    | ok node =>
      simp only [bind, Except.bind]
      cases Index.children node with
      | error e => rfl
      | ok children =>
        simp only [fold]
        cases children.mapM (t.blocksBelow levels) with
        | error e => rfl
        | ok below => simp [Except.map, pure, Except.pure]

/-- The blocks of the tree are those at and below its root. -/
theorem blocks_eq (t : Tree σ K V) :
    t.blocks = t.blocksBelow t.descriptor.indexLevels t.descriptor.root := by
  simp only [blocks, collect_eq]
  cases t.blocksBelow t.descriptor.indexLevels t.descriptor.root with
  | error e => rfl
  | ok b => simp [Except.map]

/-- All leaves in the order of keys. -/
def leaves (t : Tree σ K V) : Except Error (List BlockNumber) := t.blocks.map Prod.snd

/-! ## Looking up -/

/-- The leaf to which a key belongs, and the key's place in it. -/
def locate (t : Tree σ K V) (key : κ) : Except Error (Leaf K V × Place) := do
  let probe ← K.encode key
  let n ← t.leafOf probe
  let leaf ← t.readLeaf n
  let place ← leaf.searchBytes probe
  return (leaf, place)

/-- The value of a key. -/
def get? (t : Tree σ K V) (key : κ) : Except Error (Option ν) := do
  match ← t.locate key with
  | (leaf, .found i) => (leaf.payload i).map some
  | (_, .absent _) => return none

/-- The stored key that is equal to a key, and its value. -/
def getItem? (t : Tree σ K V) (key : κ) : Except Error (Option (κ × ν)) := do
  match ← t.locate key with
  | (leaf, .found i) => (leaf.item i).map some
  | (_, .absent _) => return none

/-- Whether a key has a value. -/
def contains (t : Tree σ K V) (key : κ) : Except Error Bool :=
  (t.locate key).map fun found => found.2.isFound

/-- The number of entries. -/
def length (t : Tree σ K V) : Nat := t.descriptor.length

/-- Whether there are no entries. -/
def isEmpty (t : Tree σ K V) : Bool := t.descriptor.size = 0

/-! ## Limits -/

/-- The longest entry that a leaf takes: three of them fit. -/
def maxEntrySize (t : Tree σ K V) : Nat :=
  (Store.blockSize t.store .leaf - Block.headerSize) / 3

/-- The longest encoded key: three separators of that length fit. -/
def maxKeySize (t : Tree σ K V) : Nat :=
  min ((Store.blockSize t.store .index - Block.headerSize) / 3 - 4) t.maxEntrySize

/-- Refuses entries and keys that are too long. -/
def checkSize (t : Tree σ K V) (key entry : Bytes) : Except Error Unit :=
  if t.maxEntrySize < entry.length then
    .error (.invalidArgument (.entryTooLong entry.length t.maxEntrySize))
  else if t.maxKeySize < key.length then
    .error (.invalidArgument (.keyTooLong key.length t.maxKeySize))
  else .ok ()

/-- The encoded key, and the entry of the key and a value. -/
def encodeEntry (t : Tree σ K V) (key : κ) (value : ν) : Except Error (Bytes × Bytes) := do
  let k ← K.encode key
  let v ← V.encode value
  t.checkSize k (k ++ v)
  return (k, k ++ v)

/-! ## Saving and closing -/

/-- Writes the descriptor into the reserve. -/
def save : Action (Tree σ K V) Unit := do
  let t ← get
  let written ← t.descriptor.encode
  onStore (Store.setReserve written)
  onStore Store.sync
  modify fun t => { t with unsaved := false }

/-- The store that is left when the tree is given up. What is unsaved is saved
if possible. -/
def release (t : Tree σ K V) : σ :=
  if t.unsaved then
    let saved := (save : Action (Tree σ K V) Unit) t
    saved.2.store
  else t.store

/-- Saves the tree and gives it up. -/
def close (t : Tree σ K V) : Except Error Unit × σ :=
  let saved := (save : Action (Tree σ K V) Unit) t
  (saved.1, saved.2.release)

/-- Frees all blocks and starts again with an empty leaf. -/
def truncate : Action (Tree σ K V) Unit := do
  let t ← get
  let (indexBlocks, leaves) ← t.blocks
  indexBlocks.forM (free .index)
  leaves.forM (free .leaf)
  let root ← addLeaf t.emptyLeaf
  setDescriptor (.empty root)
  save

end Tree

end PagedMap
