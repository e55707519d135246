/-
# Splitting a block

A block is cut between two entries so that the halves differ in bytes as little
as can be; of two equally good cuts the later one is taken.

Key definitions: `Block.cutFrom`, `Block.cut`, `Block.splitAt`, `Block.split`.
-/
import PagedMap.Block.Basic

namespace PagedMap.Block

variable {κ π : Type} {K : OrderedCodec κ} {P : Codec π}

/-- The distance of two numbers. -/
def gap (m n : Nat) : Nat := (m - n) + (n - m)

/-- Considers the cut before the first of `entries`, which has index `i` and
`below` bytes below it, and then the cuts after it, until half of the bytes are
below. `best` is the best cut so far and `bestGap` twice its distance from the
middle. -/
def cutFrom (total : Nat) : List Bytes → Nat → Nat → Nat → Nat → Nat
  | [], _, _, best, _ => best
  | e :: entries, i, below, best, bestGap =>
    let here := gap (2 * below) total
    let better := here ≤ bestGap
    let best := if better then i else best
    let bestGap := if better then here else bestGap
    if total ≤ 2 * below then best
    else cutFrom total entries (i + 1) (below + e.length) best bestGap

/-- The index of the first entry of the upper half. -/
def cut (b : Block K P) : Nat :=
  match b.entries with
  | [] => 1
  | e :: entries => cutFrom b.entryBytes entries 1 e.length 1 (gap (2 * e.length) b.entryBytes)

/-- The entries below an index, and those from it on in a block of their own. -/
def splitAt (b : Block K P) (i : Nat) : Block K P × Block K P :=
  ({ b with entries := b.entries.take i }, { b.cleared with entries := b.entries.drop i })

/-- Keeps the lower half and gives the upper. A block whose halves do not both
fit is cut all the same. -/
def split : Action (Block K P) (Block K P) := fun b =>
  if b.length < 2 then (.error (.internal .splitTooFew), b)
  else
    let (lower, upper) := b.splitAt b.cut
    if lower.isOverflowed || upper.isOverflowed then (.error (.internal .splitTooLarge), lower)
    else (.ok upper, lower)

end PagedMap.Block
