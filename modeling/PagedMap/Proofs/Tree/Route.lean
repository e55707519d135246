/-
# The way to a key

In every index block on the way down a key belongs under one child: the items of
the children before it are smaller, those of the children after it are larger
(`Regime.exists_route`). This is why a walk that goes down one child only misses
nothing.

Key definition: `Regime.Route`.
Key theorem: `Regime.exists_route`.
-/
import PagedMap.Proofs.Tree.Edit
import PagedMap.Proofs.Tree.Settle

namespace PagedMap

variable {κ ν τ : Type} [LinearOrder κ]

theorem Span.Has.between {r : Span κ} {k : κ} {as bs : List κ} (h : r.Has k)
    (has : ∀ a ∈ as, a ≤ k) (hbs : ∀ b ∈ bs, k < b) : (r.between as bs).Has k := by
  constructor
  · intro a ha
    rcases Option.or_eq_some_iff.1 ha with ha | ⟨-, ha⟩
    · exact has a (List.mem_of_getLast? ha)
    · exact h.1 a ha
  · intro b hb
    rcases Option.or_eq_some_iff.1 hb with hb | ⟨-, hb⟩
    · exact hbs b (List.mem_of_head? hb)
    · exact h.2 b hb

section Chains

variable {H : Span κ → τ → Prop} {f : τ → List (κ × ν)}

/-- What comes before some separators is smaller than one of them. -/
theorem Before.lt (hH : ∀ r c, H r c → ∀ i ∈ f c, r.Has i.1) : ∀ {lo? : Option κ} {as : List κ}
    {cs : List τ}, Before H lo? as cs → ∀ i ∈ cs.flatMap f, ∃ a ∈ as, i.1 < a
  | _, [], [], _, i, hi => by simp at hi
  | _, a :: as, c :: cs, h, i, hi => by
    rw [List.flatMap_cons, List.mem_append] at hi
    rcases hi with hi | hi
    · exact ⟨a, List.mem_cons_self .., (hH _ _ h.1 i hi).2 a rfl⟩
    · obtain ⟨b, hb, hlt⟩ := h.2.lt hH i hi
      exact ⟨b, List.mem_cons_of_mem _ hb, hlt⟩

/-- What comes after some separators is not smaller than one of them. -/
theorem After.le (hH : ∀ r c, H r c → ∀ i ∈ f c, r.Has i.1) {hi? : Option κ} : ∀ {bs : List κ}
    {ds : List τ}, After H hi? bs ds → ∀ i ∈ ds.flatMap f, ∃ b ∈ bs, b ≤ i.1
  | [], [], _, i, hi => by simp at hi
  | b :: bs, d :: ds, h, i, hi => by
    rw [List.flatMap_cons, List.mem_append] at hi
    rcases hi with hi | hi
    · exact ⟨b, List.mem_cons_self .., (hH _ _ h.1 i hi).1 b rfl⟩
    · obtain ⟨c, hc, hle⟩ := h.2.le hH i hi
      exact ⟨c, List.mem_cons_of_mem _ hc, hle⟩

end Chains

namespace Regime

variable {σ : Type} [Store σ] [LawfulStore σ] {K : OrderedCodec κ} {V : Codec ν} {g : Regime K V}
  {level : Nat} {r : Span κ} {k : κ}

/-- The key belongs under the child `c` of an index block. -/
structure Route (g : Regime K V) (level : Nat) (r : Span κ) (x : Subtree κ ν (level + 1)) (k : κ)
    (as bs : List κ) (cs : List (Subtree κ ν level)) (c : Subtree κ ν level)
    (ds : List (Subtree κ ν level)) : Prop where
  keys_eq : x.keys = as ++ bs
  children_eq : x.children = cs ++ c :: ds
  hole : g.Hole level r as bs cs ds
  sound : g.Sound level (r.between as bs) c
  has : (r.between as bs).Has k
  before : ∀ i ∈ cs.flatMap (Subtree.items level), i.1 < k
  after : ∀ i ∈ ds.flatMap (Subtree.items level), k < i.1

section Route

variable {x : Subtree κ ν (level + 1)} {as bs : List κ} {cs ds : List (Subtree κ ν level)}
  {c : Subtree κ ν level}

/-- The block is that of its parts. -/
theorem Route.node_eq (hroute : g.Route level r x k as bs cs c ds) :
    g.node (as ++ bs) ((cs ++ c :: ds).map Subtree.number) = g.block x := by
  rw [block, hroute.keys_eq, hroute.children_eq]

/-- The items are those of the child, between those of the children beside it. -/
theorem Route.items_eq (hroute : g.Route level r x k as bs cs c ds) :
    x.items (level + 1) = cs.flatMap (Subtree.items level) ++ (c.items level ++
      ds.flatMap (Subtree.items level)) := by
  rw [Subtree.items_succ, hroute.children_eq]
  simp

/-- What the store holds below the child, beside the other cells. -/
theorem Route.holds (hroute : g.Route level r x k as bs cs c ds) {others : List Cell} {H R : Heap}
    (hH : H.Holds (g.cells (level + 1) x ++ others) R) :
    ∃ M, H.Holds (g.cells level c ++ (cs.flatMap (g.cells level) ++ ds.flatMap (g.cells level))) M ∧
      M.Holds (g.cell (level + 1) x :: others) R := by
  refine Heap.holds_append.1 (hH.perm ?_)
  rw [g.cells_eq, below, hroute.children_eq]
  refine List.perm_iff_count.2 fun q => ?_
  simp only [List.flatMap_append, List.flatMap_cons, List.cons_append, List.count_append,
    List.count_cons]
  omega

end Route

variable [K.Lawful]

/-- The search leads to the child under which a key belongs. -/
theorem exists_route {x : Subtree κ ν (level + 1)} (hx : g.FairNode (g.Sound level) r x)
    (hk : r.Has k) (hw : K.Writes k) :
    ∃ place as bs cs c ds, g.Route level r x k as bs cs c ds ∧
      (g.block x).searchBytes (K.bytes k) = .ok place ∧ place.child = as.length ∧
      Index.child (g.block x) as.length = .ok c.number := by
  have hlen := FairNode.length hx
  have hwrites : ∀ a ∈ x.keys, K.Writes a := fun a ha => (hx.fits a ha).writes
  obtain ⟨place, hplace, as, bs, hkeys, hchild, has, hbs⟩ :=
    Index.searchBytes_ofParts hlen hwrites hx.keys.1 hw
  have hlt : as.length < x.children.length := by
    have := congrArg List.length hkeys
    rw [List.length_append] at this
    rw [List.length_map] at hlen
    omega
  obtain ⟨c, hc⟩ : ∃ c, x.children[as.length]? = some c := ⟨_, List.getElem?_eq_getElem hlt⟩
  have hchildren := eq_take_append_of_getElem? hc
  have hnumber : Index.child (g.block x) as.length = .ok c.number :=
    Index.child_ofParts hlen hwrites (by rw [List.getElem?_map, hc]; rfl)
  have hchain := hx.chain
  have hfits := hx.fits
  rw [hkeys, hchildren] at hchain
  rw [hkeys] at hfits
  obtain ⟨hbefore, hsound, hafter⟩ := (chain_focus (by
    rw [List.length_take]
    omega)).1 hchain
  have hitems : ∀ (r : Span κ) (c : Subtree κ ν level), g.Sound level r c →
      ∀ i ∈ c.items level, r.Has i.1 := fun r c h => h.fair.within
  refine ⟨place, as, bs, x.children.take as.length, c, x.children.drop (as.length + 1),
    ⟨hkeys, hchildren, ⟨hbefore, hafter, hfits⟩, hsound, hk.between has hbs, fun i hi => ?_,
      fun i hi => ?_⟩, hplace, hchild.symm, hnumber⟩
  · obtain ⟨a, ha, hlt⟩ := hbefore.lt hitems i hi
    exact lt_of_lt_of_le hlt (has a ha)
  · obtain ⟨b, hb, hle⟩ := hafter.le hitems i hi
    exact lt_of_lt_of_le (hbs b hb) hle

end Regime

end PagedMap
