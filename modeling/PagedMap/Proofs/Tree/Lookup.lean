/-
# Looking a key up

The way down leads to the one leaf that can have the key. So what is found there is
what the items of the whole tree have for the key (`Subtree.mem_items_iff`,
`Tree.lookup_leaf`), and a key that cannot be encoded is refused before anything is read.

Key theorems: `Tree.lookup_leaf`, `Regime.leafBelow_run`, `Regime.lookup_run`.
-/
import PagedMap.Proofs.Tree.Root
import PagedMap.Proofs.Tree.Route

namespace PagedMap

variable {σ κ ν : Type} [Store σ] [LinearOrder κ] {K : OrderedCodec κ} {V : Codec ν} {k : κ}
  {t : Tree σ K V}

/-! ### The one leaf that can have a key -/

namespace Subtree

variable {level : Nat}

/-- The leaf that can have a key is among those of the child that can have it. -/
theorem exists_leaf_of_child {x : Subtree κ ν (level + 1)} {c : Subtree κ ν level}
    {cs ds : List (Subtree κ ν level)} {y : LeafNode κ ν} {ls rs : List (LeafNode κ ν)}
    (hchildren : x.children = cs ++ c :: ds) (hleaves : c.leaves level = ls ++ y :: rs)
    (hcs : ∀ i ∈ cs.flatMap (items level), i.1 < k) (hls : ∀ i ∈ ls.flatMap LeafNode.items, i.1 < k)
    (hrs : ∀ i ∈ rs.flatMap LeafNode.items, k < i.1)
    (hds : ∀ i ∈ ds.flatMap (items level), k < i.1) :
    ∃ bs es, x.leaves (level + 1) = bs ++ y :: es ∧
      (∀ i ∈ bs.flatMap LeafNode.items, i.1 < k) ∧ ∀ i ∈ es.flatMap LeafNode.items, k < i.1 := by
  have hitems (cs : List (Subtree κ ν level)) :
      (cs.flatMap (leaves level)).flatMap LeafNode.items = cs.flatMap (items level) := by
    rw [List.flatMap_assoc]
    exact congrArg (List.flatMap · cs) (funext (flatMap_leaves level))
  refine ⟨cs.flatMap (leaves level) ++ ls, rs ++ ds.flatMap (leaves level), ?_, fun i hi => ?_,
    fun i hi => ?_⟩
  · rw [leaves, hchildren, List.flatMap_append, List.flatMap_cons, hleaves]
    simp
  · rw [List.flatMap_append, hitems] at hi
    exact (List.mem_append.1 hi).elim (hcs i) (hls i)
  · rw [List.flatMap_append, hitems] at hi
    exact (List.mem_append.1 hi).elim (hrs i) (hds i)

/-- What the subtree has for the key that one leaf has. -/
theorem mem_items_iff {x : Subtree κ ν level} {y : LeafNode κ ν} {bs es : List (LeafNode κ ν)}
    (hleaves : x.leaves level = bs ++ y :: es) (hbs : ∀ i ∈ bs.flatMap LeafNode.items, i.1 < k)
    (hes : ∀ i ∈ es.flatMap LeafNode.items, k < i.1) (v : ν) :
    (k, v) ∈ x.items level ↔ (k, v) ∈ y.items := by
  rw [← flatMap_leaves, hleaves, List.flatMap_append, List.flatMap_cons, List.mem_append,
    List.mem_append]
  refine ⟨?_, fun hv => .inr (.inl hv)⟩
  rintro (hv | hv | hv)
  · exact absurd (hbs _ hv) (lt_irrefl k)
  · exact hv
  · exact absurd (hes _ hv) (lt_irrefl k)

end Subtree

namespace Tree

/-- Looking up a key finds what the leaf has that the way down leads to. -/
theorem lookup_leaf [K.Lawful] [V.Lawful] {n last : BlockNumber} {capacity : Nat}
    {items : List (κ × ν)} (hw : K.Writes k) (hleaf : t.leafOf (K.bytes k) = .ok n)
    (hread : t.readLeaf n = .ok (Block.ofItems K V capacity items last))
    (hwrites : ∀ i ∈ items, Block.WritesItem K V i) (hs : Ascending items) :
    ∃ o, (∀ v, (k, v) ∈ items ↔ v ∈ o) ∧ t.get? k = .ok o ∧
      t.getItem? k = .ok (o.map fun v => (k, v)) ∧ t.contains k = .ok o.isSome := by
  obtain ⟨place, hplace, hamong⟩ : ∃ place,
      (Block.ofItems K V capacity items last).searchBytes (K.bytes k) = .ok place ∧
        place.Among k items := Block.searchBytes_ofItems hwrites hw hs
  have hlocate : t.locate k = .ok (Block.ofItems K V capacity items last, place) := by
    have hencode : K.encode k = .ok (K.bytes k) := hw
    simp only [locate, hencode, hleaf, hread, hplace, bind, Except.bind, pure, Except.pure]
  cases place with
  | found i =>
    obtain ⟨xs, v, ys, rfl, rfl⟩ := hamong
    have haround := Ascending.around hs
    have hpayload : (Block.ofItems K V capacity (xs ++ (k, v) :: ys) last).payload xs.length =
        .ok v := Block.payload_ofItems (i := (k, v)) (by simp) (hwrites _ (by simp))
    have hitem : (Block.ofItems K V capacity (xs ++ (k, v) :: ys) last).item xs.length =
        .ok (k, v) := Block.item_ofItems (by simp) (hwrites _ (by simp))
    refine ⟨some v, fun u => ?_, ?_, ?_, ?_⟩
    · rw [List.mem_append, List.mem_cons, Option.mem_some_iff]
      refine ⟨?_, fun hu => .inr (.inl (by rw [hu]))⟩
      rintro (hu | hu | hu)
      · exact absurd (haround.1 _ hu) (lt_irrefl k)
      · exact (Prod.mk.inj hu).2.symm
      · exact absurd (haround.2 _ hu) (lt_irrefl k)
    · simp only [get?, hlocate, hpayload, bind, Except.bind]
      rfl
    · simp only [getItem?, hlocate, hitem, bind, Except.bind]
      rfl
    · simp only [contains, hlocate]
      rfl
  | absent i =>
    obtain ⟨xs, ys, rfl, -, hxs, hys⟩ := hamong
    refine ⟨none, fun u => ?_, ?_, ?_, ?_⟩
    · rw [List.mem_append]
      refine ⟨?_, fun hu => (Option.not_mem_none _ hu).elim⟩
      rintro (hu | hu)
      · exact absurd (hxs _ hu) (lt_irrefl k)
      · exact absurd (hys _ hu) (lt_irrefl k)
    · simp only [get?, hlocate, bind, Except.bind]
      rfl
    · simp only [getItem?, hlocate, bind, Except.bind]
      rfl
    · simp only [contains, hlocate]
      rfl

omit [LinearOrder κ] in
/-- A key that cannot be encoded is refused. -/
theorem lookup_refused {e : Error} (he : K.encode k = .error e) : t.get? k = .error e ∧
    t.getItem? k = .error e ∧ t.contains k = .error e := by
  have hlocate : t.locate k = .error e := by
    simp only [locate, he, bind, Except.bind]
  exact ⟨by rw [get?, hlocate]; rfl, by rw [getItem?, hlocate]; rfl,
    by rw [contains, hlocate]; rfl⟩

end Tree

/-! ### Trees that the calls have made -/

namespace Regime

variable [LawfulStore σ] [K.Lawful] [V.Lawful] {g : Regime K V} {R : Heap}
  {items : List (κ × ν)}

omit [V.Lawful] in
/-- The way down leads to a leaf between smaller and larger items. -/
theorem leafBelow_run (h : g.On t) (hw : K.Writes k) : ∀ {level : Nat} {x : Subtree κ ν level}
    {r : Span κ}, g.Fair level r x → g.mass level x ≤ g.room level → r.Has k →
    (∀ c ∈ g.cells level x, heap t c.1 = some c.2) →
    ∃ (bs : List (LeafNode κ ν)) (y : LeafNode κ ν) (ds : List (LeafNode κ ν)),
      t.leafBelow (K.bytes k) level x.number = .ok y.number ∧ x.leaves level = bs ++ y :: ds ∧
      (∀ i ∈ bs.flatMap LeafNode.items, i.1 < k) ∧ ∀ i ∈ ds.flatMap LeafNode.items, k < i.1
  | 0, x, r, _, _, _, _ => ⟨[], x, [], rfl, rfl, by simp, by simp⟩
  | level + 1, x, r, hx, hmass, hk, hcells => by
    obtain ⟨place, as, bs, cs, c, ds, hroute, hplace, hchild, hnumber⟩ := exists_route hx hk hw
    have hread := readIndex_eq h (hcells _ (List.mem_cons_self ..)) hx.fits (FairNode.length hx)
      hmass
    have hc : c ∈ x.children := by
      rw [hroute.children_eq]
      exact List.mem_append_cons_self
    obtain ⟨ls, y, rs, hleaf, hleaves, hls, hrs⟩ :=
      leafBelow_run h hw hroute.sound.fair hroute.sound.tight.mass_le hroute.has fun cell hcell =>
        hcells cell (List.mem_cons_of_mem _ (List.mem_flatMap.2 ⟨c, hc, hcell⟩))
    obtain ⟨bs, es, hx', hbs, hes⟩ := Subtree.exists_leaf_of_child hroute.children_eq hleaves
      hroute.before hls hrs hroute.after
    refine ⟨bs, y, es, ?_, hx', hbs, hes⟩
    rw [← hchild] at hnumber
    change Block.searchBytes (g.node x.keys (x.children.map Subtree.number)) _ = _ at hplace
    change Index.child (g.node x.keys (x.children.map Subtree.number)) _ = _ at hnumber
    simp only [Tree.leafBelow, hread, bind, Except.bind, hplace, hnumber, hleaf]

/-- The leaves of a tree are well-placed, and can be read. -/
theorem Rooted.leaf {level : Nat} {x : Subtree κ ν level} (h : g.Rooted level x R t)
    {y : LeafNode κ ν} (hy : y ∈ x.leaves level) :
    (∃ r, g.FairLeaf r y) ∧ t.readLeaf y.number = .ok (g.leaf y.items) := by
  obtain ⟨⟨r, hfair⟩, hmass, hcell⟩ := h.sound.fair.leaves h.sound.mass_le y hy
  exact ⟨⟨r, hfair⟩, readLeaf_eq h.on (h.holds.get hcell) hfair.fits hmass⟩

omit [V.Lawful] in
/-- A key that can be encoded belongs to a leaf between smaller and larger items. -/
theorem Rooted.leafOf {level : Nat} {x : Subtree κ ν level} (h : g.Rooted level x R t)
    (hw : K.Writes k) : ∃ (bs : List (LeafNode κ ν)) (y : LeafNode κ ν) (ds : List (LeafNode κ ν)),
      t.leafOf (K.bytes k) = .ok y.number ∧ x.leaves level = bs ++ y :: ds ∧
      (∀ i ∈ bs.flatMap LeafNode.items, i.1 < k) ∧ ∀ i ∈ ds.flatMap LeafNode.items, k < i.1 := by
  rw [Tree.leafOf, h.root_eq, h.indexLevels_eq]
  exact leafBelow_run h.on hw h.sound.fair h.sound.mass_le (Span.has_all k)
    fun _ hc => h.holds.get hc

/-- Looking up a key that can be encoded finds its item, if it has one. -/
theorem lookup_run (h : g.Holding items R t) (hw : K.Writes k) :
    ∃ o, (∀ v, (k, v) ∈ items ↔ v ∈ o) ∧ t.get? k = .ok o ∧
      t.getItem? k = .ok (o.map fun v => (k, v)) ∧ t.contains k = .ok o.isSome := by
  obtain ⟨level, x, hrooted, rfl⟩ := h
  obtain ⟨bs, y, ds, hleaf, hleaves, hbelow, habove⟩ := hrooted.leafOf hw
  obtain ⟨⟨r, hy⟩, hread⟩ := hrooted.leaf (y := y) (by simp [hleaves])
  obtain ⟨o, ho, hanswers⟩ := Tree.lookup_leaf hw hleaf hread (fun i hi => (hy.fits i hi).writes)
    hy.ascending
  exact ⟨o, fun v => (Subtree.mem_items_iff hleaves hbelow habove v).trans (ho v), hanswers⟩

end Regime

end PagedMap
