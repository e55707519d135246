/-
# Ranks

The rank of a key is the number of smaller keys in the tree. It is found by
counting the entries of the leaves before the one to which the key belongs.

Key definitions: `Rank`, `Tree.rank`, `Tree.rank?`, `Tree.keyAt?`.
-/
import PagedMap.Tree.Basic

namespace PagedMap

/-- Where a key stands among the keys of a tree. -/
structure Rank where
  /-- The number of smaller keys in the tree. -/
  smaller : Nat
  /-- The number of entries of the tree. -/
  total : Nat
  /-- The number of smaller keys in the leaf to which the key belongs. -/
  smallerInLeaf : Nat
  /-- The number of entries of that leaf. -/
  leafLength : Nat
  /-- Whether the key is in the tree. -/
  isPresent : Bool
  deriving Repr, DecidableEq

namespace Tree

variable {σ κ ν : Type} [Store σ] {K : OrderedCodec κ} {V : Codec ν}

/-- The number of entries of the leaves before a leaf. -/
def countBefore (t : Tree σ K V) (target : BlockNumber) : List BlockNumber → Except Error Nat
  | [] => .error (.corruption (.leafNotListed target))
  | n :: rest =>
    if n = target then .ok 0
    else do
      let leaf ← t.readLeaf n
      let count ← countBefore t target rest
      return leaf.length + count

/-- Where a key stands, or would stand if it were in the tree. -/
def rank (t : Tree σ K V) (key : κ) : Except Error Rank := do
  let probe ← K.encode key
  let target ← t.leafOf probe
  let leaf ← t.readLeaf target
  let place ← leaf.searchBytes probe
  let leaves ← t.leaves
  let before ← t.countBefore target leaves
  return ⟨before + place.index, t.length, place.index, leaf.length, place.isFound⟩

/-- Where a key stands, if it is in the tree. -/
def rank? (t : Tree σ K V) (key : κ) : Except Error (Option Rank) :=
  (t.rank key).map fun r => if r.isPresent then some r else none

/-- The key at an index into the entries of some leaves. -/
def keyIn? (t : Tree σ K V) : List BlockNumber → Nat → Except Error (Option κ)
  | [], _ => .ok none
  | n :: rest, i => do
    let leaf ← t.readLeaf n
    if i < leaf.length then (leaf.key i).map some
    else keyIn? t rest (i - leaf.length)

/-- The key of a rank. -/
def keyAt? (t : Tree σ K V) (i : Nat) : Except Error (Option κ) :=
  if t.length ≤ i then .ok none
  else do
    let leaves ← t.leaves
    t.keyIn? leaves i

end Tree

end PagedMap
