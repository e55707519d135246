/-
# The structure that is found in a store

What is found by following the pointers to children from a block on: so many levels
of index blocks, each with a separator at least, whose separators keep the items
below them apart, and then the leaves (`Tree.Below`). A tree that stores items has
this structure (`Regime.below_run`), and if there are no items it is a single leaf
(`Regime.Stores.leaf_of_nil`). So it is with every tree that is reachable from a new
store (`Tree.reachable_structured`).

Key definitions: `Separates`, `Tree.Below`.
Key theorems: `Regime.below_run`, `Regime.Stores.leaf_of_nil`, `Tree.reachable_structured`.
-/
import PagedMap.Proofs.Codec.Kinds
import PagedMap.Proofs.Tree.Fresh
import PagedMap.Proofs.Tree.Verified

namespace PagedMap

section Separates

variable {κ ν τ : Type} [LinearOrder κ]

/-- Separator `i` is above every key of part `i` and not above any key of the part
after it. -/
def Separates (ks : List κ) (parts : List (List (κ × ν))) : Prop :=
  ∀ i k, ks[i]? = some k → (∀ p ∈ parts[i]?, ∀ x ∈ p, x.1 < k) ∧
    ∀ p ∈ parts[i + 1]?, ∀ x ∈ p, k ≤ x.1

/-- The separators of a chain keep the items of its children apart. -/
theorem Chain.separates {H : Span κ → τ → Prop} {f : τ → List (κ × ν)}
    (hH : ∀ r c, H r c → ∀ i ∈ f c, r.Has i.1) : ∀ {r : Span κ} {ks : List κ} {cs : List τ},
    Chain H r ks cs → Separates ks (cs.map f)
  | _, [], [_], _ => fun _ _ hk => by cases hk
  | r, k :: ks, c :: cs, h => by
    intro i a ha
    cases i with
    | zero =>
      obtain rfl : k = a := Option.some.inj ha
      refine ⟨?_, ?_⟩
      · rintro _ ⟨⟩ x hx
        exact (hH _ _ h.1 x hx).2 k rfl
      · intro p hp x hx
        obtain ⟨d, cs, rfl⟩ : ∃ d ds, cs = d :: ds := by
          refine List.exists_cons_of_ne_nil fun hnil => ?_
          rw [hnil] at hp
          cases hp
        obtain rfl : f d = p := Option.some.inj hp
        exact (hH _ _ (chain_cons.1 h.2).1 x hx).1 k rfl
    | succ i => exact h.2.separates hH i a ha

end Separates

namespace Tree

variable {σ κ ν : Type} [Store σ] [LinearOrder κ] {K : OrderedCodec κ} {V : Codec ν}

/-- At and below a block with so many index levels, all blocks are allocated, and the
leaves hold the items. -/
def Below (t : Tree σ K V) : Nat → BlockNumber → List (κ × ν) → Prop
  | 0, n, items =>
    Store.isAllocated t.store .leaf n = true ∧
      ∃ leaf, t.readLeaf n = .ok leaf ∧ leaf.items = items.map .ok
  | levels + 1, n, items =>
    Store.isAllocated t.store .index n = true ∧
      ∃ (node : Index K) (keys : List κ) (children : List BlockNumber)
        (parts : List (List (κ × ν))),
        t.readIndex n = .ok node ∧ node.entries.mapM (Block.readKey K) = .ok keys ∧
        Index.children node = .ok children ∧ children.length = keys.length + 1 ∧ keys ≠ [] ∧
        List.Forall₂ (Below t levels) children parts ∧ Separates keys parts ∧
        (∀ part ∈ parts, part ≠ []) ∧ items = parts.flatten

end Tree

namespace Regime

variable {σ κ ν : Type} [Store σ] [LawfulStore σ] [LinearOrder κ] {K : OrderedCodec κ}
  {V : Codec ν} {g : Regime K V} {R : Heap} {t : Tree σ K V} {items : List (κ × ν)}

omit [LinearOrder κ] in
theorem isAllocated_spot (h : g.On t) {level : Nat} {n : BlockNumber}
    (hn : (heap t (g.spot level n)).isSome) :
    Store.isAllocated t.store (kind level) n = true := by
  rw [LawfulStore.isAllocated_eq h.valid, h.shape]
  exact hn

variable [K.Lawful] [V.Lawful]

/-- A sound subtree whose index blocks have separators is found in the store. -/
theorem below_run (h : g.On t) : ∀ {level : Nat} {x : Subtree κ ν level} {r : Span κ},
    g.Fair level r x → g.mass level x ≤ g.room level → (level ≠ 0 → x.count level ≠ 0) →
    (∀ c ∈ g.cells level x, heap t c.1 = some c.2) → t.Below level x.number (x.items level)
  | 0, (x : LeafNode κ ν), r, hx, hmass, _, hcells => by
    have hcell := hcells _ (List.mem_cons_self ..)
    have hread := readLeaf_eq h hcell (FairLeaf.fits hx) hmass
    exact ⟨isAllocated_spot h (Option.isSome_iff_exists.2 ⟨_, hcell⟩), _, hread,
      Block.items_ofItems fun i hi => (FairLeaf.fits hx i hi).writes⟩
  | level + 1, x, r, hx, hmass, hcount, hcells => by
    have hcell := hcells _ (List.mem_cons_self ..)
    have hread := readIndex_eq h hcell hx.fits (FairNode.length hx) hmass
    have hw : ∀ k ∈ x.keys, K.Writes k := fun k hk => (hx.fits k hk).writes
    have hlen := FairNode.length hx
    refine ⟨isAllocated_spot h (Option.isSome_iff_exists.2 ⟨_, hcell⟩), _,
      x.keys, x.children.map Subtree.number, x.children.map (Subtree.items level), hread,
      Index.readKeys_ofParts hlen hw, Index.children_ofParts hlen hw, hlen, ?_, ?_,
      hx.chain.separates fun _ _ hc => hc.fills.within, ?_, List.flatMap_def ..⟩
    · intro hnil
      exact hcount (Nat.succ_ne_zero level) (congrArg List.length hnil)
    · rw [List.forall₂_map_left_iff, List.forall₂_map_right_iff, List.forall₂_same]
      intro c hc
      obtain ⟨r', hsound⟩ := hx.chain.of_mem c hc
      exact below_run h hsound.fair hsound.tight.mass_le (fun _ => hsound.tight.count_ne_zero)
        fun cell hcell => hcells cell (List.mem_cons_of_mem _ (List.mem_flatMap.2 ⟨c, hc, hcell⟩))
    · intro part hpart
      obtain ⟨c, hc, rfl⟩ := List.mem_map.1 hpart
      obtain ⟨r', hsound⟩ := hx.chain.of_mem c hc
      exact hsound.fills.ne_nil

/-- What is sound is found in the store. -/
theorem Sound.below_run (h : g.On t) {level : Nat} {x : Subtree κ ν level} {r : Span κ}
    (hx : g.Sound level r x) (hcells : ∀ c ∈ g.cells level x, heap t c.1 = some c.2) :
    t.Below level x.number (x.items level) :=
  Regime.below_run h hx.fair hx.tight.mass_le (fun _ => hx.tight.count_ne_zero) hcells

/-- Sound subtrees are found in the store one after the other. -/
theorem forall₂_below (h : g.On t) {level : Nat} {xs : List (Subtree κ ν level)}
    (hxs : ∀ x ∈ xs, ∃ r, g.Sound level r x)
    (hcells : ∀ x ∈ xs, ∀ c ∈ g.cells level x, heap t c.1 = some c.2) :
    List.Forall₂ (t.Below level) (xs.map Subtree.number) (xs.map (Subtree.items level)) := by
  rw [List.forall₂_map_left_iff, List.forall₂_map_right_iff, List.forall₂_same]
  intro x hx
  obtain ⟨r, hsound⟩ := hxs x hx
  exact hsound.below_run h (hcells x hx)

/-- A tree that stores items is found in its store as deep as it says. -/
theorem Stores.below (h : g.Stores items R t) :
    (t.descriptor.indexLevels : Int) = t.descriptor.leafLevel + 1 ∧
      t.Below t.descriptor.indexLevels t.descriptor.root items := by
  obtain ⟨level, x, hrooted, rfl⟩ := h.holding
  constructor
  · rw [hrooted.indexLevels_eq, hrooted.leafLevel_eq]
    omega
  · rw [hrooted.indexLevels_eq, hrooted.root_eq]
    exact below_run hrooted.on hrooted.sound.fair hrooted.sound.mass_le hrooted.sound.count_ne_zero
      fun _ hc => hrooted.holds.get hc

omit [K.Lawful] [V.Lawful] in
/-- A tree without items is a single leaf. -/
theorem Stores.leaf_of_nil (h : g.Stores ([] : List (κ × ν)) R t) :
    t.descriptor.leafLevel = -1 ∧ t.blocks = .ok ([], [t.descriptor.root]) := by
  obtain ⟨level, x, hrooted, hnil⟩ := h.holding
  cases level with
  | zero =>
    refine ⟨hrooted.leafLevel_eq, ?_⟩
    rw [Tree.blocks_eq, hrooted.indexLevels_eq]
    rfl
  | succ level => exact (hrooted.sound.fair.fills.ne_nil hnil).elim

end Regime

namespace Tree

variable {κ ν : Type} [LinearOrder κ] {K : OrderedCodec κ} {V : Codec ν} [K.Lawful] [V.Lawful]

/-- A tree that is reachable from a new store passes its check and has its structure. -/
theorem reachable_structured {o : Options} {s : Device} {t : Tree Device K V}
    (hs : Device.Fresh o s) (ht : Reachable K V s t) :
    t.verify = .ok () ∧
      (t.descriptor.indexLevels : Int) = t.descriptor.leafLevel + 1 ∧
      (∃ items, t.Below t.descriptor.indexLevels t.descriptor.root items ∧
        items.length = t.length) ∧
      (t.length = 0 → t.descriptor.leafLevel = -1 ∧ t.blocks = .ok ([], [t.descriptor.root])) := by
  obtain ⟨items, hstores⟩ := hs.blank.stores ht
  obtain ⟨hlevels, hbelow⟩ := hstores.below
  refine ⟨Regime.verify_run hstores, hlevels, ⟨items, hbelow, hstores.length_eq.symm⟩,
    fun hempty => ?_⟩
  obtain rfl : items = [] := List.eq_nil_of_length_eq_zero (hstores.length_eq.symm.trans hempty)
  exact hstores.leaf_of_nil

/-- A tree with a level of index blocks. -/
theorem reachable_structured_small : ∃ t : Tree Device word32 word32.toCodec,
    Reachable word32 word32.toCodec Device.small t ∧ t.descriptor.leafLevel = 0 ∧
      t.verify = .ok () ∧ t.descriptor.indexLevels = 1 := by
  obtain ⟨⟨answers, t⟩, hrun, hlevel⟩ := exists_ok_of_toOption
    (f := fun r => r.2.descriptor.leafLevel) (b := 0)
    (x := session word32 word32.toCodec Device.small (Device.smallCalls.take 4)) (by decide +kernel)
  have ht := reachable_of_session hrun
  obtain ⟨hverify, hlevels, -, -⟩ := reachable_structured (K := KeyKind.word32.codec)
    (V := (ValueKind.key .word32).codec) Device.small_fresh ht
  refine ⟨t, ht, hlevel, hverify, ?_⟩
  rw [hlevel] at hlevels
  exact Int.ofNat.inj hlevels

end Tree

end PagedMap
