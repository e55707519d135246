/-
# Going through the entries in order

The entries within two bounds are given leaf by leaf, in ascending or
descending order. The list of leaves is made first; the scan starts at the leaf
to which the near bound belongs, and ends at the first leaf in which the far
bound cuts entries off. What cannot be read is an error in its place, and the
last of the list.

Key definitions: `Tree.scanItems`, `Tree.scanLeaves`, `Tree.scan`, `Tree.range`,
`Tree.iter`.
-/
import PagedMap.Tree.Basic

namespace PagedMap.Tree

variable {σ κ ν : Type} [Store σ] {K : OrderedCodec κ} {V : Codec ν}

/-- The entries at some indices of a leaf, up to the first that cannot be
read, and then what comes after them. -/
def scanItems (leaf : Leaf K V) (after : List (Except Error (κ × ν))) :
    List Nat → List (Except Error (κ × ν))
  | [] => after
  | i :: rest =>
    match leaf.item i with
    | .ok entry => .ok entry :: scanItems leaf after rest
    | .error e => [.error e]

/-- A leaf, and a cursor over its entries within bounds. -/
def openLeaf (t : Tree σ K V) (descending : Bool) (lower upper : Bound κ) (n : BlockNumber) :
    Except Error (Leaf K V × Cursor) := do
  let leaf ← t.readLeaf n
  let cursor ← leaf.cursor lower upper descending
  return (leaf, cursor)

/-- The entries within bounds of leaves that are given in the order of the
scan. -/
def scanLeaves (t : Tree σ K V) (descending : Bool) (lower upper : Bound κ) :
    List BlockNumber → List (Except Error (κ × ν))
  | [] => []
  | n :: rest =>
    match t.openLeaf descending lower upper n with
    | .error e => [.error e]
    | .ok (leaf, cursor) =>
      let after := if cursor.isCut then [] else scanLeaves t descending lower upper rest
      scanItems leaf after cursor.visitAll.1

/-- The leaf at which a scan starts. -/
def startLeaf (t : Tree σ K V) (descending : Bool) (lower upper : Bound κ) :
    Except Error BlockNumber := do
  match (if descending then upper else lower).key? with
  | some key =>
    let probe ← K.encode key
    t.leafOf probe
  | none => t.endLeaf descending

/-- The entries within bounds. -/
def scan (t : Tree σ K V) (descending : Bool) (lower upper : Bound κ) :
    Except Error (List (Except Error (κ × ν))) := do
  let leaves ← t.leaves
  let start ← t.startLeaf descending lower upper
  match leaves.findIdx? (· = start) with
  | none => throw (.corruption (.leafNotListed start))
  | some i =>
    let order := if descending then (leaves.take (i + 1)).reverse else leaves.drop i
    return t.scanLeaves descending lower upper order

/-- The entries within bounds, in ascending order. -/
def range (t : Tree σ K V) (lower upper : Bound κ) :
    Except Error (List (Except Error (κ × ν))) :=
  t.scan false lower upper

/-- All entries, in ascending order. -/
def iter (t : Tree σ K V) : Except Error (List (Except Error (κ × ν))) :=
  t.scan false .unbounded .unbounded

end PagedMap.Tree
