/-
# The blocks of a tree

The blocks that a walk through the tree collects are the blocks whose cells the
store holds for the tree (`Regime.blocks_run`).

Key definitions: `Subtree.indexNumbers`, `Subtree.leafNumbers`, `Regime.spots`.
Key theorems: `Regime.blocks_run`, `Regime.spots_perm`, `Regime.Rooted.leaves`.
-/
import Mathlib.Data.List.Nodup
import PagedMap.Proofs.Tree.Root

namespace PagedMap

variable {σ κ ν : Type}

namespace Subtree

/-- The numbers of the index blocks, each before those below it. -/
def indexNumbers : (level : Nat) → Subtree κ ν level → List BlockNumber
  | 0, _ => []
  | level + 1, x => number x :: (IndexNode.children x).flatMap (indexNumbers level)

/-- The numbers of the leaves in order. -/
def leafNumbers : (level : Nat) → Subtree κ ν level → List BlockNumber
  | 0, x => [LeafNode.number x]
  | level + 1, x => (IndexNode.children x).flatMap (leafNumbers level)

theorem map_leaves : ∀ (level : Nat) (x : Subtree κ ν level),
    (x.leaves level).map LeafNode.number = x.leafNumbers level
  | 0, _ => rfl
  | level + 1, x => by
    rw [leaves, List.map_flatMap, leafNumbers]
    exact congrArg (List.flatMap · _) (funext (map_leaves level))

end Subtree

namespace Regime

variable [Store σ] [LawfulStore σ] {K : OrderedCodec κ} {V : Codec ν} {g : Regime K V} {R : Heap}
  {t t' : Tree σ K V} {items : List (κ × ν)}

/-- The spots of index blocks and leaves. -/
def spots (g : Regime K V) (b : List BlockNumber × List BlockNumber) : List Spot :=
  b.1.map (g.spot 1) ++ b.2.map (g.spot 0)

omit [Store σ] [LawfulStore σ] in
/-- The numbers are those of the cells. -/
theorem spots_perm : ∀ {level : Nat} (x : Subtree κ ν level),
    (g.spots (x.indexNumbers level, x.leafNumbers level)).Perm ((g.cells level x).map Prod.fst)
  | 0, x => List.Perm.refl _
  | level + 1, x => by
    have hchildren : ∀ cs : List (Subtree κ ν level),
        (g.spots (cs.flatMap (Subtree.indexNumbers level),
          cs.flatMap (Subtree.leafNumbers level))).Perm
          ((cs.flatMap (g.cells level)).map Prod.fst) := by
      intro cs
      induction cs with
      | nil => exact List.Perm.refl _
      | cons c cs ih =>
        have hc := spots_perm c
        rw [List.perm_iff_count] at hc ih ⊢
        intro q
        have hc := hc q
        have ih := ih q
        simp only [spots, List.flatMap_cons, List.map_append, List.count_append] at hc ih ⊢
        omega
    exact List.Perm.cons _ (hchildren x.children)

variable [LinearOrder κ] [K.Lawful]

/-- The walk below a block collects its index blocks and leaves. -/
theorem blocksBelow_run (h : g.On t) : ∀ {level : Nat} {x : Subtree κ ν level} {r : Span κ},
    g.Fair level r x → g.mass level x ≤ g.room level →
    (∀ c ∈ g.cells level x, heap t c.1 = some c.2) →
    t.blocksBelow level x.number = .ok (x.indexNumbers level, x.leafNumbers level)
  | 0, _, _, _, _, _ => rfl
  | level + 1, x, r, hx, hmass, hcells => by
    have hread := readIndex_eq h (hcells _ (List.mem_cons_self ..)) hx.fits (FairNode.length hx)
      hmass
    have hchildren : Index.children (g.node x.keys (x.children.map Subtree.number)) =
        .ok (x.children.map Subtree.number) :=
      Index.children_ofParts (FairNode.length hx) fun k hk => (hx.fits k hk).writes
    have hbelow : (x.children.map Subtree.number).mapM (t.blocksBelow level) =
        .ok (x.children.map fun c => (c.indexNumbers level, c.leafNumbers level)) := by
      refine mapM_map_ok fun c hc => ?_
      obtain ⟨r', hsound⟩ := hx.chain.of_mem c hc
      exact blocksBelow_run h hsound.fair hsound.tight.mass_le fun cell hcell =>
        hcells cell (List.mem_cons_of_mem _ (List.mem_flatMap.2 ⟨c, hc, hcell⟩))
    simp only [Tree.blocksBelow, hread, hchildren, hbelow, bind, Except.bind, pure, Except.pure,
      List.flatMap_map]
    rfl

/-- The blocks that a tree lists are different blocks of the store, and without them
the store's blocks are the rest. -/
theorem blocks_run (h : g.Holding items R t) : ∃ b, t.blocks = .ok b ∧
    ∃ cells, cells.map Prod.fst = g.spots b ∧ (heap t).Holds cells R := by
  obtain ⟨level, x, hrooted, rfl⟩ := h
  have hrun : t.blocks = .ok (x.indexNumbers level, x.leafNumbers level) := by
    rw [Tree.blocks_eq, hrooted.root_eq, hrooted.indexLevels_eq]
    exact blocksBelow_run hrooted.on hrooted.sound.fair hrooted.sound.mass_le
      fun _ hc => hrooted.holds.get hc
  have hcomp := congrFun (congrFun (List.eq_map_comp_perm Prod.fst)
    (g.spots (x.indexNumbers level, x.leafNumbers level))) (g.cells level x)
  obtain ⟨cells, hspots, hperm⟩ := hcomp ▸ spots_perm (g := g) x
  exact ⟨_, hrun, cells, hspots.symm, hrooted.holds.perm hperm.symm⟩

omit [K.Lawful] in
/-- No two leaves have the same number. -/
theorem Rooted.nodup_leaves {level : Nat} {x : Subtree κ ν level} (h : g.Rooted level x R t) :
    ((x.leaves level).map LeafNode.number).Nodup := by
  have hspots : (g.spots (x.indexNumbers level, x.leafNumbers level)).Nodup :=
    (spots_perm x).nodup_iff.2 h.holds.nodup
  rw [Subtree.map_leaves]
  exact List.Nodup.of_map _ (List.nodup_append.1 hspots).2.1

/-- The leaves are listed in order. -/
theorem Rooted.leaves {level : Nat} {x : Subtree κ ν level} (h : g.Rooted level x R t) :
    t.leaves = .ok ((x.leaves level).map LeafNode.number) := by
  rw [Tree.leaves, Tree.blocks_eq, h.root_eq, h.indexLevels_eq, blocksBelow_run h.on h.sound.fair
    h.sound.mass_le fun _ hc => h.holds.get hc, Subtree.map_leaves]
  rfl

end Regime

end PagedMap
