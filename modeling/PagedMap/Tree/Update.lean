/-
# Changing the entries of a tree

A change goes down to a leaf and comes back up. A block that has become too
large is split, and its parent gets a separator; one that has become at most
half full borrows entries from a neighbour or is merged with one, and its
parent's separator changes or goes. What the parent has to do is the block's
`Demand`. At the top, a root that was split gets a root above it, and a root that
has lost its last separator gives way to its only child.

Key definitions: `Demand`, `Tree.writeBackLeaf`, `Tree.writeBackIndex`,
`Tree.updateBelow`, `Tree.insert`, `Tree.insertIfNew`, `Tree.erase`.
-/
import PagedMap.Tree.Balance
import PagedMap.Tree.Basic

namespace PagedMap

/-- What a changed block requires of its parent. -/
inductive Demand where
  /-- Nothing. -/
  | nothing
  /-- The block was split: `key` separates it from the new block `right`. -/
  | split (key : Bytes) (right : BlockNumber)
  /-- The key of a separator must change. -/
  | replace (separator : Nat) (key : Bytes)
  /-- The block to the right of a separator was merged into the one to the
  left. -/
  | remove (separator : Nat)
  deriving Repr, DecidableEq

/-- An index block on the way down, and the child that was taken. -/
structure Parent {κ : Type} (K : OrderedCodec κ) where
  node : Index K
  position : Nat

/-- Two neighbouring blocks with their numbers, and the position in their parent
of the separator between them. -/
structure Neighbours (β : Type) where
  separator : Nat
  lowerNumber : BlockNumber
  lower : β
  upperNumber : BlockNumber
  upper : β

/-- How a change of a leaf changes the number of entries. -/
inductive SizeChange where
  | same
  | more
  | less
  deriving Repr, DecidableEq

/-- What becomes of a leaf, with the answer to the caller. -/
inductive LeafEdit {κ ν : Type} (K : OrderedCodec κ) (V : Codec ν) (ρ : Type) where
  | keep (answer : ρ)
  | change (leaf : Leaf K V) (size : SizeChange) (answer : ρ)

namespace Parent

variable {κ : Type} {K : OrderedCodec κ}

/-- The separator to the left of the child, with the child beyond it. -/
def left? (p : Parent K) : Except Error (Option (Nat × BlockNumber)) :=
  if p.position = 0 then .ok none
  else (Index.child p.node (p.position - 1)).map fun n => some (p.position - 1, n)

/-- The separator to the right of the child, with the child beyond it. -/
def right? (p : Parent K) : Except Error (Option (Nat × BlockNumber)) :=
  if p.position < p.node.length then
    (Index.child p.node (p.position + 1)).map fun n => some (p.position, n)
  else .ok none

/-- The pairs that a child makes with its neighbours, the left one first. -/
def pairs {β : Type} (p : Parent K) (load : BlockNumber → Except Error β) (n : BlockNumber)
    (block : β) : Except Error (List (Neighbours β)) := do
  let left? ← p.left?
  let right? ← p.right?
  let left ← match left? with
    | some (i, m) => do
      let neighbour ← load m
      pure [⟨i, m, neighbour, n, block⟩]
    | none => pure []
  let right ← match right? with
    | some (i, m) => do
      let neighbour ← load m
      pure [⟨i, n, block, m, neighbour⟩]
    | none => pure []
  return left ++ right

end Parent

/-- Does what a child requires of an index block that has it at a position. -/
def Demand.apply {κ : Type} {K : OrderedCodec κ} (node : Index K) (position : Nat) :
    Demand → Except Error (Index K)
  | .nothing => .ok node
  | .split key right => do
    let left ← Index.child node position
    let (_, node) ← Index.insertSeparator node key left right
    return node
  | .replace i key => Index.replaceSeparator node i key
  | .remove i => do
    let (_, node) ← Index.removeSeparator node i
    return node

namespace Tree

variable {σ κ ν : Type} [Store σ] {K : OrderedCodec κ} {V : Codec ν}

/-! ## Leaves -/

/-- The key that separates two leaves. -/
def separatorOf (lower upper : Leaf K V) : Except Error Bytes := do
  let low ← lower.keyBytes (lower.length - 1)
  let high ← upper.keyBytes 0
  K.separate low high

/-- Evens out two leaves, if entries move and the outcome is acceptable. -/
def tryShift (accept : Leaf K V → Leaf K V → Bool) (p : Neighbours (Leaf K V)) :
    Action (Tree σ K V) (Option Demand) := do
  let s := Block.shift p.lower p.upper
  if 0 < s.moved && accept s.lower s.upper then
    let key ← separatorOf s.lower s.upper
    writeLeaf p.lowerNumber s.lower
    writeLeaf p.upperNumber s.upper
    return some (.replace p.separator key)
  else return none

/-- Merges two leaves, if they fit together. -/
def tryMergeLeaves (p : Neighbours (Leaf K V)) : Action (Tree σ K V) (Option Demand) := do
  if p.lower.canMerge p.upper 0 then
    let merged ← p.lower.merge p.upper
    writeLeaf p.lowerNumber merged
    free .leaf p.upperNumber
    return some (.remove p.separator)
  else return none

/-- Mends a leaf that is at most half full: by evening it out with a neighbour
so that both are more than half full, else by merging it with one, else by
evening out as far as it goes. If nothing helps the leaf stays as it is. -/
def mendLeaf (p : Parent K) (n : BlockNumber) (leaf : Leaf K V) : Action (Tree σ K V) Demand := do
  let t ← get
  let pairs ← p.pairs t.readLeaf n leaf
  if let some demand ←
      pairs.findSomeM? (tryShift fun a b => !a.isUnderflowed && !b.isUnderflowed) then
    return demand
  if let some demand ← pairs.findSomeM? tryMergeLeaves then return demand
  if let some demand ← pairs.findSomeM? (tryShift fun a b => !a.isEmpty && !b.isEmpty) then
    return demand
  writeLeaf n leaf
  return .nothing

/-- Writes a changed leaf. -/
def writeBackLeaf (parent? : Option (Parent K)) (n : BlockNumber) (leaf : Leaf K V) :
    Action (Tree σ K V) Demand := do
  if leaf.isOverflowed then
    let (upper?, lower) := (Block.split : Action (Leaf K V) (Leaf K V)) leaf
    let upper ← upper?
    let key ← separatorOf lower upper
    writeLeaf n lower
    let right ← addLeaf upper
    return .split key right
  match parent? with
  | some p =>
    if leaf.isUnderflowed then mendLeaf p n leaf
    else
      writeLeaf n leaf
      return .nothing
  | none =>
    writeLeaf n leaf
    return .nothing

/-! ## Index blocks -/

/-- Evens out two index blocks, if separators move and the outcome is
acceptable. -/
def tryRotate (parent : Index K) (accept : Index K → Index K → Bool)
    (p : Neighbours (Index K)) : Action (Tree σ K V) (Option Demand) := do
  let key ← parent.keyBytes p.separator
  let r ← Index.rotate p.lower p.upper key
  if 0 < r.moved && accept r.lower r.upper then
    writeIndex p.lowerNumber r.lower
    writeIndex p.upperNumber r.upper
    return some (.replace p.separator r.key)
  else return none

/-- Merges two index blocks and the separator between them, if they fit
together. -/
def tryMergeIndexes (parent : Index K) (p : Neighbours (Index K)) :
    Action (Tree σ K V) (Option Demand) := do
  let key ← parent.keyBytes p.separator
  if p.lower.canMerge p.upper (key.length + 4) then
    let between := Index.separatorEntry key p.lower.last
    let merged ← (p.lower.insertIdx p.lower.length between).merge p.upper
    writeIndex p.lowerNumber merged
    free .index p.upperNumber
    return some (.remove p.separator)
  else return none

/-- Mends an index block that is at most half full, as `mendLeaf` does with a
leaf. -/
def mendIndex (p : Parent K) (n : BlockNumber) (node : Index K) : Action (Tree σ K V) Demand := do
  let t ← get
  let pairs ← p.pairs t.readIndex n node
  if let some demand ←
      pairs.findSomeM? (tryRotate p.node fun a b => !a.isUnderflowed && !b.isUnderflowed) then
    return demand
  if let some demand ← pairs.findSomeM? (tryMergeIndexes p.node) then return demand
  if let some demand ← pairs.findSomeM? (tryRotate p.node fun _ _ => true) then return demand
  writeIndex n node
  return .nothing

/-- Makes the only child of an index block without separators the root, again
and again while that is such a block too. -/
def descendRoot : Nat → Action (Tree σ K V) Unit
  | 0 => return ()
  | levels + 1 => do
    let t ← get
    let d := t.descriptor
    let root ← t.readIndex d.root
    if root.isEmpty then
      free .index d.root
      setDescriptor { d with root := root.last, leafLevel := d.leafLevel - 1 }
      descendRoot levels

/-- Makes the only child of the root, an index block without separators, the
root. -/
def lowerRoot (n child : BlockNumber) : Action (Tree σ K V) Unit := do
  free .index n
  let t ← get
  let d := { t.descriptor with root := child, leafLevel := t.descriptor.leafLevel - 1 }
  setDescriptor d
  descendRoot d.indexLevels

/-- Writes a changed index block. -/
def writeBackIndex (parent? : Option (Parent K)) (n : BlockNumber) (node : Index K) :
    Action (Tree σ K V) Demand := do
  if node.isOverflowed then
    let (halves?, lower) := (Index.promote : Action (Index K) (Bytes × Index K)) node
    let (key, upper) ← halves?
    writeIndex n lower
    let right ← addIndex upper
    return .split key right
  match parent? with
  | some p =>
    if node.isUnderflowed then mendIndex p n node
    else
      writeIndex n node
      return .nothing
  | none =>
    if node.isEmpty then lowerRoot n node.last
    else writeIndex n node
    return .nothing

/-! ## The whole way -/

/-- Takes a change of the number of entries into the descriptor. -/
def countChange (size : SizeChange) : Action (Tree σ K V) Unit := do
  let t ← get
  let d := t.descriptor
  match size with
  | .same => setDescriptor d
  | .more => setDescriptor { d with size := d.size + 1 }
  | .less => setDescriptor { d with size := d.size - 1 }

/-- Changes the leaf to which an encoded key belongs, below block `n` with
`levels` index levels, and settles the blocks on the way back. -/
def updateBelow {ρ : Type} (probe : Bytes) (edit : Leaf K V → Except Error (LeafEdit K V ρ)) :
    Nat → Option (Parent K) → BlockNumber → Action (Tree σ K V) (Demand × ρ)
  | 0, parent?, n => do
    let t ← get
    let leaf ← t.readLeaf n
    match ← edit leaf with
    | .keep answer => return (.nothing, answer)
    | .change leaf size answer =>
      countChange size
      let demand ← writeBackLeaf parent? n leaf
      return (demand, answer)
  | levels + 1, parent?, n => do
    let t ← get
    let node ← t.readIndex n
    let place ← node.searchBytes probe
    let i := place.child
    let child ← Index.child node i
    let (demand, answer) ← updateBelow probe edit levels (some ⟨node, i⟩) child
    match demand with
    | .nothing => return (.nothing, answer)
    | demand =>
      let node ← demand.apply node i
      let demand ← writeBackIndex parent? n node
      return (demand, answer)

/-- Puts a root above a root that was split. -/
def raiseRoot (key : Bytes) (right : BlockNumber) : Action (Tree σ K V) Unit := do
  let t ← get
  let root ← t.emptyIndex.append (Index.separatorEntry key t.descriptor.root)
  let n ← addIndex { root with last := right }
  let t ← get
  setDescriptor { t.descriptor with root := n, leafLevel := t.descriptor.leafLevel + 1 }

/-- Changes the leaf to which an encoded key belongs. -/
def update {ρ : Type} (probe : Bytes) (edit : Leaf K V → Except Error (LeafEdit K V ρ)) :
    Action (Tree σ K V) ρ := do
  let t ← get
  let (demand, answer) ← updateBelow probe edit t.descriptor.indexLevels none t.descriptor.root
  match demand with
  | .nothing => return answer
  | .split key right =>
    raiseRoot key right
    return answer
  | _ => throw (.internal .rootDemand)

/-- Puts an entry into its leaf. An entry of the same key is replaced, or else
stays and is the answer. -/
def insertEdit (replace : Bool) (key entry : Bytes) (leaf : Leaf K V) :
    Except Error (LeafEdit K V (Option ν)) := do
  match ← leaf.searchBytes key with
  | .found i =>
    let previous ← leaf.payload i
    if replace then
      let (_, leaf) ← leaf.removeAt i
      let (_, leaf) ← leaf.insertOverfull entry
      return .change leaf .same (some previous)
    else return .keep (some previous)
  | .absent _ =>
    let (_, leaf) ← leaf.insertOverfull entry
    return .change leaf .more none

/-- Takes the entry of a key out of its leaf. -/
def eraseEdit (key : Bytes) (leaf : Leaf K V) : Except Error (LeafEdit K V (Option ν)) := do
  match ← leaf.searchBytes key with
  | .found i =>
    let previous ← leaf.payload i
    let (_, leaf) ← leaf.removeAt i
    return .change leaf .less (some previous)
  | .absent _ => return .keep none

/-- Gives a key a value; the answer is its previous value. -/
def insert (key : κ) (value : ν) : Action (Tree σ K V) (Option ν) := do
  let t ← get
  let (k, entry) ← t.encodeEntry key value
  update k (insertEdit true k entry)

/-- Gives a key a value if it has none; the answer is the value it has. -/
def insertIfNew (key : κ) (value : ν) : Action (Tree σ K V) (Option ν) := do
  let t ← get
  let (k, entry) ← t.encodeEntry key value
  update k (insertEdit false k entry)

/-- Takes the value from a key; the answer is that value. -/
def erase (key : κ) : Action (Tree σ K V) (Option ν) := do
  let k ← K.encode key
  update k (eraseEdit k)

end Tree

end PagedMap
