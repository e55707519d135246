/-
# Checking a tree

A tree is sound if every block of it is allocated, the keys of every block
ascend and lie between the separators that lead to it, and the leaves hold as
many entries as the descriptor records.

Key definitions: `Fences`, `Tree.checkWithin`, `Tree.verifyBelow`,
`Tree.verify`.
-/
import PagedMap.Tree.Basic

namespace PagedMap

/-- The encoded keys from `lower?` on and below `upper?`. -/
structure Fences where
  lower? : Option Bytes
  upper? : Option Bytes
  deriving Repr, DecidableEq

/-- The ranges of the children between separators, in a block of the given
range. -/
def Fences.children (r : Fences) : List Bytes → List Fences
  | [] => [r]
  | k :: keys => ⟨r.lower?, some k⟩ :: Fences.children ⟨some k, r.upper?⟩ keys

namespace Tree

variable {σ κ ν : Type} [Store σ] {K : OrderedCodec κ} {V : Codec ν}

/-- Refuses keys that do not ascend. -/
def checkAscending (K : OrderedCodec κ) (n : BlockNumber) : List Bytes → Except Error Unit
  | a :: b :: keys => do
    match ← K.compareEncoded a b with
    | .lt => checkAscending K n (b :: keys)
    | _ => throw (.corruption (.keysOutOfOrder n))
  | _ => .ok ()

/-- Refuses a first key below the range. -/
def checkLower (K : OrderedCodec κ) (n : BlockNumber) (lower? first? : Option Bytes) :
    Except Error Unit := do
  match lower?, first? with
  | some lower, some first =>
    match ← K.compareEncoded first lower with
    | .lt => throw (.corruption (.keyBelowSeparator n))
    | _ => return ()
  | _, _ => return ()

/-- Refuses a last key that is not below the end of the range. -/
def checkUpper (K : OrderedCodec κ) (n : BlockNumber) (upper? last? : Option Bytes) :
    Except Error Unit := do
  match upper?, last? with
  | some upper, some last =>
    match ← K.compareEncoded last upper with
    | .lt => return ()
    | _ => throw (.corruption (.keyNotBelowSeparator n))
  | _, _ => return ()

/-- Refuses keys of a block that do not ascend or are not within its range. -/
def checkWithin (K : OrderedCodec κ) (n : BlockNumber) (keys : List Bytes) (r : Fences) :
    Except Error Unit := do
  checkAscending K n keys
  checkLower K n r.lower? keys.head?
  checkUpper K n r.upper? keys.getLast?

/-- Refuses a block that is not allocated. -/
def checkAllocated (t : Tree σ K V) (kind : Pool) (n : BlockNumber) : Except Error Unit :=
  if Store.isAllocated t.store kind n then .ok ()
  else .error (.corruption (.childNotAllocated kind n))

/-- Checks the blocks at and below a block with `levels` index levels, and
counts their entries. -/
def verifyBelow (t : Tree σ K V) : Nat → BlockNumber → Fences → Except Error Nat
  | 0, n, r => do
    t.checkAllocated .leaf n
    let leaf ← t.readLeaf n
    let keys ← leaf.keys
    checkWithin K n keys r
    return leaf.length
  | levels + 1, n, r => do
    t.checkAllocated .index n
    let node ← t.readIndex n
    let keys ← node.keys
    checkWithin K n keys r
    let children ← Index.children node
    let counts ← (children.zip (r.children keys)).mapM fun c => verifyBelow t levels c.1 c.2
    return counts.foldr (· + ·) 0

/-- Checks the whole tree. -/
def verify (t : Tree σ K V) : Except Error Unit := do
  let count ← t.verifyBelow t.descriptor.indexLevels t.descriptor.root ⟨none, none⟩
  if count ≠ t.length then throw (.corruption (.entryCount count t.length))

end Tree

end PagedMap
