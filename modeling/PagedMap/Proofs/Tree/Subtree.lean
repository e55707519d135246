/-
# The tree that the blocks are

What the blocks below a block stand for is a subtree: a leaf with its items, or
an index block with its separators and children, all children of one height. A
subtree says which cells it takes in the store (`Regime.cells`). It is sound if
its items lie between the separators, entries and separators are no longer than
a third of the room in their blocks, no block is too full, and none but the root
is empty or, in a dense regime, nearly empty.

Key definitions: `Subtree`, `Regime`, `Regime.cells`, `Regime.Fair`,
`Regime.Tight`, `Regime.Sound`.
Key theorems: `Regime.sound_iff`, `Regime.Sound.fills`.
-/
import PagedMap.Proofs.Block.Parts
import PagedMap.Proofs.Store.Lawful
import PagedMap.Proofs.Tree.Chain

namespace PagedMap

/-- A leaf with its items. -/
structure LeafNode (κ ν : Type) where
  number : BlockNumber
  items : List (κ × ν)

/-- An index block with its separators and children. -/
structure IndexNode (κ τ : Type) where
  number : BlockNumber
  keys : List κ
  children : List τ

/-- A block with so many index levels, and what is below it. -/
@[reducible]
def Subtree (κ ν : Type) : Nat → Type
  | 0 => LeafNode κ ν
  | level + 1 => IndexNode κ (Subtree κ ν level)

namespace Subtree

variable {κ ν : Type}

/-- The number of the uppermost block. -/
def number : {level : Nat} → Subtree κ ν level → BlockNumber
  | 0, x => LeafNode.number x
  | _ + 1, x => IndexNode.number x

/-- Where one child takes the place of another with the same number, the numbers stay. -/
theorem map_number_focus {level : Nat} {cs ds : List (Subtree κ ν level)}
    {x x' : Subtree κ ν level} (h : x'.number = x.number) :
    (cs ++ x' :: ds).map number = (cs ++ x :: ds).map number := by
  rw [List.map_append, List.map_cons, h, List.map_append, List.map_cons]

/-- The items of all leaves in order. -/
def items : (level : Nat) → Subtree κ ν level → List (κ × ν)
  | 0, x => LeafNode.items x
  | level + 1, x => (IndexNode.children x).flatMap (items level)

@[simp]
theorem items_zero (x : LeafNode κ ν) : items 0 x = x.items := rfl

@[simp]
theorem items_succ {level : Nat} (x : Subtree κ ν (level + 1)) :
    items (level + 1) x = (IndexNode.children x).flatMap (items level) := rfl

/-- The leaves in order. -/
def leaves : (level : Nat) → Subtree κ ν level → List (LeafNode κ ν)
  | 0, x => [x]
  | level + 1, x => (IndexNode.children x).flatMap (leaves level)

/-- The items are those of the leaves. -/
theorem flatMap_leaves : ∀ (level : Nat) (x : Subtree κ ν level),
    (x.leaves level).flatMap LeafNode.items = x.items level
  | 0, x => by simp [leaves]
  | level + 1, x => by
    rw [leaves, List.flatMap_assoc, items_succ]
    exact congrArg (List.flatMap · _) (funext (flatMap_leaves level))

/-- The number of entries of the uppermost block. -/
def count : (level : Nat) → Subtree κ ν level → Nat
  | 0, x => (LeafNode.items x).length
  | _ + 1, x => (IndexNode.keys x).length

end Subtree

/-- The sizes of the blocks of a tree, and whether none of them but the root may
be nearly empty. -/
structure Regime {κ ν : Type} (K : OrderedCodec κ) (V : Codec ν) where
  shape : Shape
  isDense : Bool

namespace Regime

variable {κ ν : Type} {K : OrderedCodec κ} {V : Codec ν} (g : Regime K V)

/-- The kind of a block with so many index levels. -/
def kind : Nat → Pool
  | 0 => .leaf
  | _ + 1 => .index

/-- Where a block with so many index levels is. -/
def spot (level : Nat) (n : BlockNumber) : Spot := (g.shape.home (kind level), n)

/-- The size of a block with so many index levels. -/
def size (level : Nat) : Nat := g.shape.blockSize (kind level)

/-- The room for entries in a block with so many index levels. -/
def room (level : Nat) : Nat := g.size level - 8

/-- A third of the room. -/
def third (level : Nat) : Nat := g.room level / 3

/-- The longest encoded key. -/
def keyLimit : Nat := min (g.third 1 - 4) (g.third 0)

/-- An item that a leaf takes. -/
structure FitsItem (i : κ × ν) : Prop where
  writes : Block.WritesItem K V i
  length_le : (Block.record K V i).length ≤ g.third 0
  width_le : K.width i.1 ≤ g.keyLimit

/-- A key that an index block takes. -/
structure FitsKey (k : κ) : Prop where
  writes : K.Writes k
  width_le : K.width k ≤ g.keyLimit

variable {g} in
theorem FitsItem.key {i : κ × ν} (h : g.FitsItem i) : g.FitsKey i.1 := ⟨h.writes.1, h.width_le⟩

/-! ### The cells of a subtree -/

/-- The leaf of items. -/
def leaf (items : List (κ × ν)) : Leaf K V :=
  Block.ofItems K V (g.size 0) items noBlock

/-- The index block of separators and children. -/
def node (keys : List κ) (children : List BlockNumber) : Index K :=
  Index.ofParts K (g.size 1) keys children

/-- The uppermost block of a subtree with index levels. -/
def block {level : Nat} (x : Subtree κ ν (level + 1)) : Index K :=
  g.node x.keys (x.children.map Subtree.number)

/-- The uppermost block. -/
def cell : (level : Nat) → Subtree κ ν level → Cell
  | 0, x => (g.spot 0 (LeafNode.number x), (g.leaf (LeafNode.items x)).toBytes.fit (g.size 0))
  | level + 1, x => (g.spot (level + 1) (IndexNode.number x),
      (g.node (IndexNode.keys x) ((IndexNode.children x).map Subtree.number)).toBytes.fit (g.size 1))

/-- All blocks. -/
def cells : (level : Nat) → Subtree κ ν level → List Cell
  | 0, x => [g.cell 0 x]
  | level + 1, x => g.cell (level + 1) x :: (IndexNode.children x).flatMap (cells level)

/-- The blocks below the uppermost. -/
def below : (level : Nat) → Subtree κ ν level → List Cell
  | 0, _ => []
  | level + 1, x => (IndexNode.children x).flatMap (g.cells level)

theorem cells_eq : ∀ (level : Nat) (x : Subtree κ ν level),
    g.cells level x = g.cell level x :: g.below level x
  | 0, _ => rfl
  | _ + 1, _ => rfl

@[simp]
theorem cell_mk : ∀ (level : Nat) (x : Subtree κ ν level),
    (g.spot level x.number, (g.cell level x).2) = g.cell level x
  | 0, _ => rfl
  | _ + 1, _ => rfl

/-! ### Sound subtrees -/

/-- The number of bytes of the entries of the uppermost block. -/
def mass (_ : Regime K V) : (level : Nat) → Subtree κ ν level → Nat
  | 0, x => Block.bytesOf K V (LeafNode.items x)
  | _ + 1, x => Index.weight K (IndexNode.keys x)

/-- The part of the room that a block of a dense regime fills is more than one
of so many. -/
def share : Nat → Nat
  | 0 => 3
  | _ + 1 => 6

/-- The uppermost block, which is not the root, is neither too full nor too
empty. -/
structure Tight (level : Nat) (x : Subtree κ ν level) : Prop where
  mass_le : g.mass level x ≤ g.room level
  count_ne_zero : x.count level ≠ 0
  room_lt : g.isDense → g.room level < share level * g.mass level x

variable {g} in
/-- A block that holds as much as two others is not too empty if one of them is
not. -/
theorem Tight.of_both {level : Nat} {w y z : Subtree κ ν level}
    (hle : g.mass level w ≤ g.room level)
    (hmass : g.mass level y + g.mass level z ≤ g.mass level w)
    (hcount : y.count level + z.count level ≤ w.count level)
    (h : g.Tight level y ∨ g.Tight level z) : g.Tight level w := by
  refine ⟨hle, ?_, fun hdense => ?_⟩
  · rcases h with h | h
    · have := h.count_ne_zero
      omega
    · have := h.count_ne_zero
      omega
  · rcases h with h | h
    · exact Nat.lt_of_lt_of_le (h.room_lt hdense) (Nat.mul_le_mul_left _ (by omega))
    · exact Nat.lt_of_lt_of_le (h.room_lt hdense) (Nat.mul_le_mul_left _ (by omega))

variable {g} in
/-- An index block with the separators of another is as full. -/
theorem Tight.of_keys {level : Nat} {x y : Subtree κ ν (level + 1)} (h : g.Tight (level + 1) x)
    (hkeys : y.keys = x.keys) : g.Tight (level + 1) y := by
  obtain ⟨hle, hcount, hlt⟩ := h
  exact ⟨by rwa [mass, hkeys], by rwa [Subtree.count, hkeys], by rwa [mass, hkeys]⟩

variable [LinearOrder κ]

/-- The items of a leaf are well-placed. -/
structure FairLeaf (r : Span κ) (x : LeafNode κ ν) : Prop where
  fits : ∀ i ∈ x.items, g.FitsItem i
  ascending : Ascending x.items
  within : ∀ i ∈ x.items, r.Has i.1

/-- The separators and children of an index block are well-placed. -/
structure FairNode {τ : Type} (H : Span κ → τ → Prop) (r : Span κ) (x : IndexNode κ τ) : Prop where
  fits : ∀ k ∈ x.keys, g.FitsKey k
  chain : Chain H r x.keys x.children

/-- What is below a block that is not the root is well-placed, and no block is
too full or too empty. -/
def Sound : (level : Nat) → Span κ → Subtree κ ν level → Prop
  | 0, r, x => g.FairLeaf r x ∧ g.Tight 0 x
  | level + 1, r, x => g.FairNode (Sound level) r x ∧ g.Tight (level + 1) x

/-- What is below a block is sound; the block itself may be too full or too
empty. -/
def Fair : (level : Nat) → Span κ → Subtree κ ν level → Prop
  | 0, r, x => g.FairLeaf r x
  | level + 1, r, x => g.FairNode (g.Sound level) r x

/-- What is below the root is sound, and the root is not too full, and not empty
unless it is a leaf. -/
structure SoundRoot (level : Nat) (x : Subtree κ ν level) : Prop where
  fair : g.Fair level Span.all x
  mass_le : g.mass level x ≤ g.room level
  count_ne_zero : level ≠ 0 → x.count level ≠ 0

variable {g}

theorem sound_iff : ∀ {level : Nat} {r : Span κ} {x : Subtree κ ν level},
    g.Sound level r x ↔ g.Fair level r x ∧ g.Tight level x
  | 0, _, _ => Iff.rfl
  | _ + 1, _, _ => Iff.rfl

theorem Sound.fair {level : Nat} {r : Span κ} {x : Subtree κ ν level} (h : g.Sound level r x) :
    g.Fair level r x :=
  (sound_iff.1 h).1

theorem Sound.tight {level : Nat} {r : Span κ} {x : Subtree κ ν level} (h : g.Sound level r x) :
    g.Tight level x :=
  (sound_iff.1 h).2

/-- The items of a sound subtree fill its bounds. -/
theorem Sound.fills : ∀ {level : Nat} {r : Span κ} {x : Subtree κ ν level}, g.Sound level r x →
    Fills r (x.items level)
  | 0, _, _, h => ⟨fun hnil => h.2.count_ne_zero (congrArg List.length hnil), h.1.ascending,
      h.1.within⟩
  | _ + 1, _, _, h => h.1.chain.items fun _ _ hc => hc.fills

theorem Sound.proper {level : Nat} {r : Span κ} {x : Subtree κ ν level} (h : g.Sound level r x) :
    r.Proper :=
  h.fills.proper

/-- What is sound below a bound is sound below a higher one. -/
theorem Sound.raise {k : κ} {hi? : Option κ} (hk : ∀ b ∈ hi?, k ≤ b) : ∀ {level : Nat}
    {lo? : Option κ} {x : Subtree κ ν level}, g.Sound level ⟨lo?, some k⟩ x →
    g.Sound level ⟨lo?, hi?⟩ x
  | 0, _, _, h => ⟨⟨h.1.fits, h.1.ascending, fun i hi => ⟨(h.1.within i hi).1,
      fun b hb => lt_of_lt_of_le ((h.1.within i hi).2 k rfl) (hk b hb)⟩⟩, h.2⟩
  | _ + 1, _, _, h => ⟨⟨h.1.fits, h.1.chain.raise fun _ _ hc => hc.raise hk⟩, h.2⟩

theorem FairNode.fills {level : Nat} {r : Span κ} {x : Subtree κ ν (level + 1)}
    (h : g.FairNode (g.Sound level) r x) : Fills r (x.items (level + 1)) :=
  h.chain.items fun _ _ hc => hc.fills

/-- The items of a well-placed subtree ascend within its bounds. -/
theorem Fair.ascending : ∀ {level : Nat} {r : Span κ} {x : Subtree κ ν level},
    g.Fair level r x → Ascending (x.items level)
  | 0, _, _, h => FairLeaf.ascending h
  | _ + 1, _, _, h => (FairNode.fills h).ascending

theorem Fair.within : ∀ {level : Nat} {r : Span κ} {x : Subtree κ ν level},
    g.Fair level r x → ∀ i ∈ x.items level, r.Has i.1
  | 0, _, _, h => FairLeaf.within h
  | _ + 1, _, _, h => (FairNode.fills h).within

/-- The leaves of a well-placed subtree are well-placed, and none is too full. -/
theorem Fair.leaves : ∀ {level : Nat} {r : Span κ} {x : Subtree κ ν level}, g.Fair level r x →
    g.mass level x ≤ g.room level → ∀ y ∈ x.leaves level,
    (∃ r', g.FairLeaf r' y) ∧ g.mass 0 y ≤ g.room 0 ∧ g.cell 0 y ∈ g.cells level x
  | 0, r, x, h, hmass, y, hy => by
    obtain rfl := List.mem_singleton.1 hy
    exact ⟨⟨r, h⟩, hmass, List.mem_singleton_self _⟩
  | level + 1, r, x, h, hmass, y, hy => by
    obtain ⟨c, hc, hy⟩ := List.mem_flatMap.1 hy
    obtain ⟨r', hsound⟩ := FairNode.chain h |>.of_mem c hc
    obtain ⟨hfair, hle, hcell⟩ := Fair.leaves hsound.fair hsound.tight.mass_le y hy
    exact ⟨hfair, hle, List.mem_cons_of_mem _ (List.mem_flatMap.2 ⟨c, hc, hcell⟩)⟩

/-- The items of a well-placed subtree are within the limits. -/
theorem Fair.fitsItem {level : Nat} {r : Span κ} {x : Subtree κ ν level} (h : g.Fair level r x)
    (hmass : g.mass level x ≤ g.room level) : ∀ i ∈ x.items level, g.FitsItem i := by
  intro i hi
  rw [← Subtree.flatMap_leaves] at hi
  obtain ⟨y, hy, hi⟩ := List.mem_flatMap.1 hi
  obtain ⟨⟨r', hfair⟩, -, -⟩ := h.leaves hmass y hy
  exact hfair.fits i hi

/-- The separators of a well-placed index block ascend within its bounds. -/
theorem FairNode.keys {level : Nat} {r : Span κ} {x : Subtree κ ν (level + 1)}
    (h : g.FairNode (g.Sound level) r x) : x.keys.Pairwise (· < ·) ∧
      ∀ k ∈ x.keys, (∀ a ∈ r.lower?, a < k) ∧ ∀ b ∈ r.upper?, k < b :=
  (Chain.keys (fun _ _ hc => hc.proper) h.chain).2

theorem FairNode.length {level : Nat} {r : Span κ} {x : Subtree κ ν (level + 1)}
    (h : g.FairNode (g.Sound level) r x) :
    (x.children.map Subtree.number).length = x.keys.length + 1 := by
  rw [List.length_map]
  exact h.chain.length

end Regime

end PagedMap
