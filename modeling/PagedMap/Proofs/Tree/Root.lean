/-
# Raising and lowering the root

A root that was split gets a root above it (`Regime.raiseRoot_ends`). A root that
has lost its last separator gives way to its only child, which is not empty, so
that no further level goes (`Regime.lowerRoot_run`).

Key definitions: `Regime.Rooted`, `Regime.Holding`, `Regime.RootChanged`.
Key theorems: `Regime.writeBackLeaf_root_ends`, `Regime.writeBackIndex_root_ends`,
`Regime.raiseRoot_ends`, `Regime.lowerRoot_run`.
-/
import PagedMap.Proofs.Tree.LeafChange
import PagedMap.Proofs.Tree.NodeChange

namespace PagedMap.Regime

variable {σ κ ν : Type} [Store σ] [LawfulStore σ] [LinearOrder κ] {K : OrderedCodec κ}
  {V : Codec ν} {g : Regime K V} {level : Nat} {R : Heap} {t t' : Tree σ K V}

/-- The blocks of the tree are those of a sound subtree, beside a rest. -/
structure Rooted (g : Regime K V) (level : Nat) (x : Subtree κ ν level) (R : Heap)
    (t : Tree σ K V) : Prop where
  on : g.On t
  root_eq : t.descriptor.root = x.number
  leafLevel_eq : t.descriptor.leafLevel = (level : Int) - 1
  sound : g.SoundRoot level x
  holds : (heap t).Holds (g.cells level x) R

/-- What is sound below all others is sound as a root. -/
theorem Sound.root {x : Subtree κ ν level} (h : g.Sound level Span.all x) : g.SoundRoot level x :=
  ⟨h.fair, h.tight.mass_le, fun _ => h.tight.count_ne_zero⟩

/-- The blocks of the tree, beside a rest, hold the items. -/
def Holding (g : Regime K V) (items : List (κ × ν)) (R : Heap) (t : Tree σ K V) : Prop :=
  ∃ (level : Nat) (x : Subtree κ ν level), g.Rooted level x R t ∧ x.items level = items

theorem Holding.on {items : List (κ × ν)} (h : g.Holding items R t) : g.On t := by
  obtain ⟨level, x, hrooted, -⟩ := h
  exact hrooted.on

/-- The tree may have changed in its blocks and in where its root is. -/
structure Moves (t t' : Tree σ K V) : Prop where
  size_eq : t'.descriptor.size = t.descriptor.size
  reserved_eq : LawfulStore.reserved t'.store = LawfulStore.reserved t.store

omit [LinearOrder κ] in
theorem Stays.moves (h : g.Stays t t') : Moves t t' := ⟨by rw [h.descriptor], h.reserved⟩

/-- What a change of the root leads to: the root is cut in two, or the tree holds
the items. -/
def RootChanged (g : Regime K V) (level : Nat) (n : BlockNumber) (items : List (κ × ν)) (R : Heap)
    (t : Tree σ K V) (demand : Demand) (t' : Tree σ K V) : Prop :=
  g.Stays t t' ∧ g.Halved level Span.all n items R demand t' ∨
    demand = .nothing ∧ g.Holding items R t' ∧ Moves t t'

theorem Rooted.indexLevels_eq {x : Subtree κ ν level} (h : g.Rooted level x R t) :
    t.descriptor.indexLevels = level := by
  rw [Descriptor.indexLevels, h.leafLevel_eq]
  omega

omit [LinearOrder κ] in
theorem setDescriptor_run (h : g.On t) (d : Descriptor) :
    ∃ t', Tree.setDescriptor d t = (.ok (), t') ∧ g.On t' ∧ t'.descriptor = d ∧
      t'.store = t.store :=
  ⟨_, rfl, ⟨h.valid, h.shape⟩, rfl, rfl⟩

section Root

variable [K.Lawful] {y z : Subtree κ ν level} {k : κ} {r : Span κ}

omit [LinearOrder κ] [K.Lawful] in
/-- An index block takes a first separator. -/
theorem append_emptyIndex (h : g.On t) (hk : g.FitsKey k) (n : BlockNumber) :
    t.emptyIndex.append (Index.separatorEntry (K.bytes k) n) =
      .ok ⟨g.size 1, [Index.separatorEntry (K.bytes k) n], noBlock⟩ := by
  have hthird := hk.length_le h.shape_valid
  have hroom := g.third_le 1
  have hsize := size_eq h.shape_valid 1
  have hfits : (Block.empty K word32.toCodec (g.size 1)).fits
      (Index.separatorEntry (K.bytes k) n) = true := by
    rw [Block.fits, Index.length_separatorEntry, decide_eq_true_iff]
    change 8 + (K.width k + 4) ≤ g.size 1
    omega
  rw [Tree.emptyIndex, h.blockSize_eq]
  exact if_pos hfits

omit [K.Lawful] in
/-- The halves of a root get a root above them. -/
theorem raiseRoot_ends (h : g.On t) (hroot : t.descriptor.root = y.number)
    (hlevel : t.descriptor.leafLevel = (level : Int) - 1) (hk : g.FitsKey k)
    (hy : g.Sound level ⟨none, some k⟩ y) (hz : g.Sound level ⟨some k, none⟩ z)
    (hH : (heap t).Holds (g.cells level y ++ g.cells level z) R) :
    Ends (Tree.raiseRoot (K.bytes k) z.number) t (fun e t' => IsFull .index e ∧ t' = t)
      fun _ t' => g.Holding (y.items level ++ z.items level) R t' ∧ Moves t t' := by
  have hthird := hk.length_le h.shape_valid
  have hroom := g.third_le 1
  have happend := append_emptyIndex h hk y.number
  rw [← hroot] at happend
  have hmass : Index.weight K [k] ≤ g.room 1 := by
    rw [Index.weight_cons, Index.weight_nil]
    omega
  have hends := addIndex_ends h [y, z] rfl hmass hH
  have hnode : g.node [k] ([y, z].map Subtree.number) =
      ⟨g.size 1, [Index.separatorEntry (K.bytes k) t.descriptor.root], z.number⟩ := by
    rw [hroot]
    rfl
  rw [hnode] at hends
  unfold Tree.raiseRoot
  refine ends_bind_get (ends_bind_lift happend ?_)
  refine Ends.bind hends ?_
  rintro n t₁ ⟨-, hstays, hH₁⟩
  refine ends_bind_get ?_
  obtain ⟨t₂, hset, hon, hdescriptor, hstore⟩ := setDescriptor_run hstays.on
    { t₁.descriptor with root := n, leafLevel := t₁.descriptor.leafLevel + 1 }
  refine ends_of_ok hset ⟨⟨level + 1, ⟨n, [k], [y, z]⟩, ⟨hon, by rw [hdescriptor]; rfl, ?_, ?_, ?_⟩,
    by simp [Subtree.items]⟩, by rw [hdescriptor, hstays.descriptor],
    by rw [hstore, hstays.reserved]⟩
  · rw [hdescriptor, hstays.descriptor]
    simp only [hlevel]
    omega
  · refine ⟨⟨?_, hy, hz⟩, hmass, fun _ => Nat.one_ne_zero⟩
    intro a ha
    rw [List.mem_singleton.1 ha]
    exact hk
  · rw [heap, hstore]
    refine Heap.Holds.perm hH₁ (List.Perm.cons _ ?_)
    simp

/-- The only child of the root is there to become the root: it is a leaf, or an
index block that is not empty. -/
theorem descendRoot_run (h : g.On t) (hroot : t.descriptor.root = y.number)
    (hy : g.Sound level r y) (hH : (heap t).Holds (g.cells level y) R) :
    Tree.descendRoot level t = (.ok (), t) := by
  cases level with
  | zero => rfl
  | succ level =>
    have hread := readIndex_eq h (hH.get (List.mem_cons_self ..)) hy.1.fits (FairNode.length hy.1)
      hy.2.mass_le
    have hne : y.keys.isEmpty = false := by
      rw [List.isEmpty_eq_false_iff]
      exact fun hnil => hy.2.count_ne_zero (congrArg List.length hnil)
    have hempty : (g.node y.keys (y.children.map Subtree.number)).isEmpty = false := by
      rw [node, Index.isEmpty_ofParts (FairNode.length hy.1), hne]
    rw [← hroot] at hread
    simp only [Tree.descendRoot, bind_eq, get_eq, lift_eq, hread, hempty, Bool.false_eq_true,
      ↓reduceIte]
    rfl

/-- A root without separators gives way to its only child. -/
theorem lowerRoot_run {n : BlockNumber} {old : Bytes} (h : g.On t)
    (hlevel : t.descriptor.leafLevel = level) (hy : g.Sound level Span.all y)
    (hH : (heap t).Holds ((g.spot (level + 1) n, old) :: g.cells level y) R) :
    ∃ t', Tree.lowerRoot n y.number t = (.ok (), t') ∧ g.Rooted level y R t' ∧ Moves t t' := by
  obtain ⟨t₁, hfree, hstays, hH₁⟩ := free_run h hH
  let d : Descriptor :=
    { t₁.descriptor with root := y.number, leafLevel := t₁.descriptor.leafLevel - 1 }
  obtain ⟨t₂, hset, hon, hdescriptor, hstore⟩ := setDescriptor_run hstays.on d
  have hlevel' : d.leafLevel = (level : Int) - 1 := by
    simp only [d, hstays.descriptor, hlevel]
  have hH₂ : (heap t₂).Holds (g.cells level y) R := by
    rw [heap, hstore]
    exact hH₁
  have hlevels : d.indexLevels = level := by
    rw [Descriptor.indexLevels, hlevel']
    omega
  have hdescend := descendRoot_run hon (by rw [hdescriptor]) hy hH₂
  refine ⟨t₂, ?_, ⟨hon, by rw [hdescriptor], by rw [hdescriptor, hlevel'], ?_, hH₂⟩,
    by rw [hdescriptor]; simp only [d, hstays.descriptor], by rw [hstore, hstays.reserved]⟩
  · have hfree' : Tree.free .index n t = (.ok (), t₁) := hfree
    simp only [Tree.lowerRoot, bind_eq, hfree', get_eq]
    rw [hset]
    exact (congrArg (Tree.descendRoot · t₂) hlevels).trans hdescend
  · exact hy.root

omit [K.Lawful] in
/-- A changed root leaf that fits is written. -/
theorem writeBackLeaf_root_fits {x : LeafNode κ ν} {old : Bytes} (h : g.On t)
    (hroot : t.descriptor.root = x.number) (hlevel : t.descriptor.leafLevel = -1)
    (hx : g.FairLeaf Span.all x) (hmass : g.mass 0 x ≤ g.room 0)
    (hH : (heap t).Holds [(g.spot 0 x.number, old)] R) :
    Ends (Tree.writeBackLeaf none x.number (g.leaf x.items)) t (fun _ _ => False)
      (g.RootChanged 0 x.number x.items R t) := by
  unfold Tree.writeBackLeaf
  rw [if_neg fun hover => Nat.not_lt.2 hmass ((isOverflowed_leaf h.shape_valid).1 hover)]
  obtain ⟨t₁, hwrite, hstays, hH₁⟩ := writeLeaf_run h hmass hH
  refine ends_bind_of_ok hwrite (ends_pure (.inr ⟨rfl, ⟨0, x, ⟨hstays.on, ?_, ?_,
    ⟨hx, hmass, fun h0 => (h0 rfl).elim⟩, hH₁⟩, rfl⟩, hstays.moves⟩))
  · rw [hstays.descriptor, hroot]
    rfl
  · rw [hstays.descriptor, hlevel]
    rfl

/-- A changed root leaf is written, or cut in two. -/
theorem writeBackLeaf_root_ends {x : LeafNode κ ν} {old : Bytes} (h : g.On t)
    (hroot : t.descriptor.root = x.number) (hlevel : t.descriptor.leafLevel = -1)
    (hx : g.FairLeaf Span.all x) (hbound : g.mass 0 x ≤ g.room 0 + g.third 0)
    (hH : (heap t).Holds [(g.spot 0 x.number, old)] R) :
    Ends (Tree.writeBackLeaf none x.number (g.leaf x.items)) t
      (g.CutOff 0 Span.all x.number x.items R t) (g.RootChanged 0 x.number x.items R t) := by
  by_cases hmass : g.mass 0 x ≤ g.room 0
  · exact (writeBackLeaf_root_fits h hroot hlevel hx hmass hH).imp_error fun _ _ he => he.elim
  · exact (splitLeaf_ends h hx (Nat.lt_of_not_le hmass) hbound hH none).imp fun d t' hq => .inl hq

/-- A changed root index block that fits is written, or gives way to its only child. -/
theorem writeBackIndex_root_fits {x : Subtree κ ν (level + 1)} {old : Bytes} (h : g.On t)
    (hroot : t.descriptor.root = x.number) (hlevel : t.descriptor.leafLevel = level)
    (hx : g.FairNode (g.Sound level) Span.all x) (hmass : Index.weight K x.keys ≤ g.room 1)
    (hH : (heap t).Holds ((g.spot (level + 1) x.number, old) :: x.children.flatMap (g.cells level))
      R) :
    Ends (Tree.writeBackIndex none x.number (g.block x)) t (fun _ _ => False)
      (g.RootChanged (level + 1) x.number (x.items (level + 1)) R t) := by
  have hlen := hx.chain.length
  unfold Tree.writeBackIndex
  rw [if_neg fun hover => Nat.not_lt.2 hmass ((isOverflowed_block h.shape_valid hlen).1 hover)]
  have hempty : (g.block x).isEmpty = x.keys.isEmpty :=
    Index.isEmpty_ofParts (by simpa using hlen)
  cases hkeys : x.keys.isEmpty with
  | true =>
    obtain ⟨n, keys, children⟩ := x
    obtain rfl : keys = [] := List.isEmpty_iff.1 hkeys
    obtain ⟨y, rfl⟩ : ∃ y, children = [y] := List.length_eq_one_iff.1 hlen
    have hH' : (heap t).Holds ((g.spot (level + 1) n, old) :: g.cells level y) R := by
      rw [← List.flatMap_singleton (g.cells level) y]
      exact hH
    obtain ⟨t₁, hlower, hrooted, hmoves⟩ := lowerRoot_run h hlevel hx.chain hH'
    rw [if_pos (hempty.trans hkeys)]
    exact ends_bind_of_ok hlower (ends_pure (.inr ⟨rfl, ⟨level, y, hrooted,
      by simp [Subtree.items]⟩, hmoves⟩))
  | false =>
    obtain ⟨t₁, hwrite, hstays, hH₁⟩ := writeIndex_run h hlen hmass hH
    rw [if_neg (by rw [hempty, hkeys]; exact Bool.false_ne_true)]
    refine ends_bind_of_ok hwrite (ends_pure (.inr ⟨rfl, ⟨level + 1, x, ⟨hstays.on, ?_, ?_,
      ⟨hx, hmass, fun _ hcount => ?_⟩, hH₁⟩, rfl⟩, hstays.moves⟩))
    · rw [hstays.descriptor, hroot]
    · rw [hstays.descriptor, hlevel]
      omega
    · obtain hnil : x.keys = [] := List.eq_nil_of_length_eq_zero hcount
      rw [hnil] at hkeys
      cases hkeys

/-- A changed root index block is written, or cut in two, or gives way to its only
child. -/
theorem writeBackIndex_root_ends {x : Subtree κ ν (level + 1)} {old : Bytes} (h : g.On t)
    (hroot : t.descriptor.root = x.number) (hlevel : t.descriptor.leafLevel = level)
    (hx : g.FairNode (g.Sound level) Span.all x)
    (hbound : Index.weight K x.keys ≤ g.room 1 + g.third 1)
    (hH : (heap t).Holds ((g.spot (level + 1) x.number, old) :: x.children.flatMap (g.cells level))
      R) :
    Ends (Tree.writeBackIndex none x.number (g.block x)) t
      (g.CutOff (level + 1) Span.all x.number (x.items (level + 1)) R t)
      (g.RootChanged (level + 1) x.number (x.items (level + 1)) R t) := by
  by_cases hmass : Index.weight K x.keys ≤ g.room 1
  · exact (writeBackIndex_root_fits h hroot hlevel hx hmass hH).imp_error fun _ _ he => he.elim
  · exact (splitNode_ends h hx (Nat.lt_of_not_le hmass) hbound hH none).imp fun d t' hq => .inl hq

end Root

end PagedMap.Regime
