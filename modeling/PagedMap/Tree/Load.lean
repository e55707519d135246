/-
# Filling an empty tree from sorted entries

The leaves are filled one after the other. A full leaf is written, and a
separator for it goes into the index block that is open one level up; a full
index block is written in the same way, and its last separator goes up. Of each
level only the last block is open. In the end the open blocks are written from
the leaf upwards; if the last leaf is at most half full it is evened out with
the one before. If anything fails, what was written is freed and the tree is
empty again.

Key definitions: `Loading`, `Loading.closeLeaf`, `Loading.addSeparator`,
`Loading.finish`, `Tree.load`.
-/
import PagedMap.Tree.Update

namespace PagedMap

/-- A tree while it is being filled. -/
structure Loading (σ : Type) {κ ν : Type} (K : OrderedCodec κ) (V : Codec ν) where
  tree : Tree σ K V
  /-- The blocks written so far, the last first. -/
  written : List (Pool × BlockNumber)
  /-- The open index blocks, the lowest first. -/
  levels : List (Index K)
  /-- The leaf written last. -/
  previous? : Option (BlockNumber × Leaf K V)
  /-- The open leaf. -/
  leaf : Leaf K V
  /-- The number of entries so far. -/
  count : Nat
  /-- The encoded key of the last entry. -/
  lastKey? : Option Bytes

namespace Loading

variable {σ κ ν : Type} [Store σ] {K : OrderedCodec κ} {V : Codec ν}

/-- Does something with the tree. -/
def onTree {α : Type} (act : Action (Tree σ K V) α) : Action (Loading σ K V) α := fun l =>
  match l with
  | ⟨tree, written, levels, previous?, leaf, count, lastKey?⟩ =>
    let (r, tree) := act tree
    (r, ⟨tree, written, levels, previous?, leaf, count, lastKey?⟩)

/-- Allocates a block and notes it. -/
def allocate (kind : Pool) (data : Bytes) : Action (Loading σ K V) BlockNumber := do
  let n ← onTree (Tree.onStore (Store.allocate kind data))
  modify fun l => { l with written := (kind, n) :: l.written }
  return n

/-- Puts a separator into the open index blocks from some level up, and gives
them as they are then. A block that is full is written without its last
separator, which goes up; its left child becomes the block's pointer. -/
def addSeparator (capacity : Nat) (key : Bytes) (left : BlockNumber) :
    List (Index K) → Action (Loading σ K V) (List (Index K))
  | [] => do
    let node ← (Index.empty K capacity).append (Index.separatorEntry key left)
    return [node]
  | node :: above => do
    let entry := Index.separatorEntry key left
    if node.fits entry then
      let node ← node.append entry
      return node :: above
    else
      let i := node.length - 1
      let upKey ← node.keyBytes i
      let upChild ← Index.child node i
      let (_, full) ← node.removeAt i
      let n ← allocate .index ({ full with last := upChild } : Index K).toBytes
      let fresh ← (Index.empty K capacity).append entry
      let above ← addSeparator capacity upKey n above
      return fresh :: above

/-- Writes the open leaf, which is full, and begins another whose first key is
given. -/
def closeLeaf (nextKey : Bytes) : Action (Loading σ K V) Unit := do
  let l ← get
  let full := l.leaf
  set { l with leaf := full.cleared }
  let low ← full.keyBytes (full.length - 1)
  let key ← K.separate low nextKey
  let n ← allocate .leaf full.toBytes
  let capacity := Store.blockSize l.tree.store .index
  let levels ← addSeparator capacity key n l.levels
  modify fun l => { l with levels, previous? := some (n, full) }

/-- Refuses a key that is not above the one before. -/
def checkAscending (key : Bytes) : Action (Loading σ K V) Unit := do
  let l ← get
  match l.lastKey? with
  | none => return ()
  | some last =>
    match ← K.compareEncoded last key with
    | .lt => return ()
    | _ => throw (.invalidArgument (.notAscending l.count))

/-- Adds an entry. -/
def add (entry : κ × ν) : Action (Loading σ K V) Unit := do
  let l ← get
  let (key, bytes) ← l.tree.encodeEntry entry.1 entry.2
  checkAscending key
  if !l.leaf.fits bytes then closeLeaf key
  let l ← get
  let leaf ← l.leaf.append bytes
  set { l with leaf, count := l.count + 1, lastKey? := some key }

/-- Evens out the last leaf with the one before, if it is at most half full and
the new separator fits into the block above. -/
def evenOutLast : Action (Loading σ K V) Unit := do
  let l ← get
  match l.previous?, l.levels with
  | some (n, previous), lowest :: above =>
    if l.leaf.isUnderflowed then
      let s := Block.shift previous l.leaf
      if 0 < s.moved then
        let key ← Tree.separatorOf s.lower s.upper
        let lowest ← Index.replaceSeparator lowest (lowest.length - 1) key
        if !lowest.isOverflowed then
          onTree (Tree.writeLeaf n s.lower)
          modify fun l => { l with levels := lowest :: above, leaf := s.upper }
  | _, _ => return ()

/-- Writes the open index blocks, the lowest first, each with the block written
before it as its last child; gives the number of the last. -/
def writeLevels (child : BlockNumber) : List (Index K) → Action (Loading σ K V) BlockNumber
  | [] => return child
  | node :: above => do
    let n ← allocate .index ({ node with last := child } : Index K).toBytes
    writeLevels n above

/-- Writes what is open and makes the uppermost block the root. -/
def finish : Action (Loading σ K V) Unit := do
  evenOutLast
  let l ← get
  let n ← allocate .leaf l.leaf.toBytes
  let root ← writeLevels n l.levels
  modify fun l' =>
    { l' with tree :=
      { l'.tree with descriptor := ⟨root, (l.levels.length : Int) - 1, l.count⟩ } }

/-- Adds all entries and writes them. -/
def addAll (entries : List (κ × ν)) : Action (Loading σ K V) Unit := do
  entries.forM add
  finish

end Loading

namespace Tree

variable {σ κ ν : Type} [Store σ] {K : OrderedCodec κ} {V : Codec ν}

/-- Frees blocks as far as possible. -/
def freeAll : List (Pool × BlockNumber) → Action (Tree σ K V) Unit
  | [] => return ()
  | (kind, n) :: rest => do
    tryCatch (free kind n) fun _ => return ()
    freeAll rest

/-- Fills the tree, which must be empty, with entries in strictly ascending
order of keys. -/
def load (entries : List (κ × ν)) : Action (Tree σ K V) Unit := do
  let t ← get
  if !t.isEmpty then throw (.invalidState (.treeNotEmpty t.length))
  let (indexBlocks, leaves) ← t.blocks
  indexBlocks.forM (free .index)
  leaves.forM (free .leaf)
  let t ← get
  let start : Loading σ K V := ⟨t, [], [], none, t.emptyLeaf, 0, none⟩
  let (result, stop) := (Loading.addAll entries : Action (Loading σ K V) Unit) start
  set stop.tree
  match result with
  | .ok () =>
    setDescriptor stop.tree.descriptor
    save
  | .error e =>
    freeAll stop.written
    let root ← addLeaf t.emptyLeaf
    setDescriptor (.empty root)
    throw e

end Tree

end PagedMap
