/-
# Ranks are counts

A tree tells of a key how many of its items have smaller keys: those of the leaves before
the one to which the key belongs, and those before the key's place in that leaf
(`Regime.rank_run`). The key of a rank is that of the item at this index
(`Regime.keyAt?_run`), so that the rank of a stored key has this key
(`Ascending.getElem?_smallerIn`).

Key definitions: `Rank.of`, `Tree.LeafFor`.
Key theorems: `Regime.rank_run`, `Regime.keyAt?_run`.
-/
import PagedMap.Proofs.Tree.Blocks
import PagedMap.Proofs.Tree.Calls
import PagedMap.Proofs.Tree.Lookup
import PagedMap.Tree.Rank

namespace PagedMap

section Count

variable {κ ν : Type} [LinearOrder κ]

/-- Where a key stands among items, and among those of them that are in one leaf. -/
def Rank.of (k : κ) (xs items : List (κ × ν)) : Rank where
  smaller := smallerIn k items
  total := items.length
  smallerInLeaf := smallerIn k xs
  leafLength := xs.length
  isPresent := decide (k ∈ items.map Prod.fst)

/-- The way down for a key leads to a leaf that has some of the items of the tree: those
before them have smaller keys, and those after them larger ones. -/
structure Tree.LeafFor {σ : Type} [Store σ] {K : OrderedCodec κ} {V : Codec ν} (t : Tree σ K V)
    (k : κ) (items xs : List (κ × ν)) : Prop where
  reads : ∃ n leaf, t.leafOf (K.bytes k) = .ok n ∧ t.readLeaf n = .ok leaf ∧
    leaf.items = xs.map .ok
  around : ∃ before after, items = before ++ xs ++ after ∧ (∀ i ∈ before, i.1 < k) ∧
    ∀ i ∈ after, k < i.1

end Count

namespace Regime

variable {σ κ ν : Type} [Store σ] [LawfulStore σ] [LinearOrder κ] {K : OrderedCodec κ}
  {V : Codec ν} [K.Lawful] [V.Lawful] {g : Regime K V} {R : Heap} {t : Tree σ K V}
  {items : List (κ × ν)} {k : κ}

omit [LawfulStore σ] [LinearOrder κ] [K.Lawful] [V.Lawful] in
/-- The entries of the leaves before one are counted. -/
theorem countBefore_run {y : LeafNode κ ν} {rest : List BlockNumber} :
    ∀ {ls : List (LeafNode κ ν)}, (∀ x ∈ ls, x.number ≠ y.number) →
      (∀ x ∈ ls, t.readLeaf x.number = .ok (g.leaf x.items)) →
      t.countBefore y.number (ls.map LeafNode.number ++ y.number :: rest) =
        .ok (ls.flatMap LeafNode.items).length
  | [], _, _ => if_pos rfl
  | x :: ls, hne, hread => by
    have hrest : t.countBefore y.number (ls.map LeafNode.number ++ y.number :: rest) =
        .ok (ls.flatMap LeafNode.items).length :=
      countBefore_run (fun z hz => hne z (List.mem_cons_of_mem _ hz))
        fun z hz => hread z (List.mem_cons_of_mem _ hz)
    rw [List.map_cons, List.cons_append, Tree.countBefore, if_neg (hne x (List.mem_cons_self ..)),
      hread x (List.mem_cons_self ..), hrest, List.flatMap_cons, List.length_append]
    simp only [bind, Except.bind, pure, Except.pure, leaf, Block.length_ofItems]

omit [LawfulStore σ] [V.Lawful] in
/-- The key of an index into the items of leaves is that of the item there. -/
theorem keyIn?_run : ∀ {ls : List (LeafNode κ ν)} {i : Nat},
    (∀ x ∈ ls, (∃ r, g.FairLeaf r x) ∧ t.readLeaf x.number = .ok (g.leaf x.items)) →
    t.keyIn? (ls.map LeafNode.number) i = .ok ((ls.flatMap LeafNode.items)[i]?.map Prod.fst)
  | [], _, _ => rfl
  | x :: ls, i, h => by
    obtain ⟨⟨r, hfair⟩, hread⟩ := h x (List.mem_cons_self ..)
    have hlength : (g.leaf x.items).length = x.items.length := Block.length_ofItems
    rw [List.map_cons, Tree.keyIn?, hread, List.flatMap_cons]
    simp only [bind, Except.bind, hlength]
    by_cases hlt : i < x.items.length
    · have hitem : x.items[i]? = some x.items[i] := List.getElem?_eq_getElem hlt
      have hkey : (g.leaf x.items).key i = .ok x.items[i].1 :=
        Block.key_ofItems hitem (hfair.fits _ (List.getElem_mem hlt)).writes
      rw [if_pos hlt, hkey, List.getElem?_append_left hlt, hitem]
      rfl
    · rw [if_neg hlt, List.getElem?_append_right (Nat.not_lt.1 hlt)]
      exact keyIn?_run fun z hz => h z (List.mem_cons_of_mem _ hz)

/-- A tree that stores items tells of a key where it stands among them, and among those of
the leaf to which it belongs. -/
theorem rank_run (h : g.Stores items R t) (hw : K.Writes k) :
    ∃ xs, t.LeafFor k items xs ∧ t.rank k = .ok (.of k xs items) := by
  obtain ⟨level, x, hrooted, hitems⟩ := h.holding
  obtain ⟨bs, y, ds, hleafOf, hleaves, hbelow, habove⟩ := hrooted.leafOf hw
  have hread : ∀ z ∈ bs, t.readLeaf z.number = .ok (g.leaf z.items) :=
    fun z hz => (hrooted.leaf (by simp [hleaves, hz])).2
  obtain ⟨⟨r, hfair⟩, hleaf⟩ := hrooted.leaf (y := y) (by simp [hleaves])
  have hsplit : items = bs.flatMap LeafNode.items ++ (y.items ++ ds.flatMap LeafNode.items) := by
    rw [← hitems, ← Subtree.flatMap_leaves, hleaves, List.flatMap_append, List.flatMap_cons]
  obtain ⟨place, hplace, hamong⟩ : ∃ place, (g.leaf y.items).searchBytes (K.bytes k) = .ok place ∧
    place.Among k y.items :=
    Block.searchBytes_ofItems (fun i hi => (hfair.fits i hi).writes) hw hfair.ascending
  obtain ⟨hindex, hfound⟩ := hamong.eq_smallerIn hfair.ascending
  have hnodup := hrooted.nodup_leaves
  rw [hleaves, List.map_append, List.map_cons] at hnodup
  have hne : ∀ z ∈ bs, z.number ≠ y.number := fun z hz =>
    (List.nodup_append.1 hnodup).2.2 _ (List.mem_map_of_mem hz) _ (List.mem_cons_self ..)
  have hcount : t.countBefore y.number ((x.leaves level).map LeafNode.number) =
      .ok (bs.flatMap LeafNode.items).length := by
    rw [hleaves, List.map_append, List.map_cons]
    exact countBefore_run hne hread
  have hsmaller : (bs.flatMap LeafNode.items).length + smallerIn k y.items = smallerIn k items := by
    rw [hsplit, smallerIn_append, smallerIn_append, smallerIn_eq_length hbelow,
      smallerIn_eq_zero fun i hi => le_of_lt (habove i hi), Nat.add_zero]
  have hpresent : place.isFound = decide (k ∈ items.map Prod.fst) := by
    have hno : ∀ {zs : List (κ × ν)}, (∀ z ∈ zs, z.1 ≠ k) → k ∉ zs.map Prod.fst := by
      intro zs hzs hmem
      obtain ⟨z, hz, hk⟩ := List.mem_map.1 hmem
      exact hzs z hz hk
    rw [Bool.eq_iff_iff, hfound, decide_eq_true_iff, hsplit, List.map_append, List.map_append,
      List.mem_append, List.mem_append]
    simp only [hno fun i hi => ne_of_lt (hbelow i hi), hno fun i hi => ne_of_gt (habove i hi),
      false_or, or_false]
  refine ⟨y.items, ⟨⟨y.number, g.leaf y.items, hleafOf, hleaf,
    Block.items_ofItems fun i hi => (hfair.fits i hi).writes⟩,
    ⟨_, _, by rw [hsplit, List.append_assoc], hbelow, habove⟩⟩, ?_⟩
  have hencode : K.encode k = .ok (K.bytes k) := hw
  have hlength : (g.leaf y.items).length = y.items.length := Block.length_ofItems
  simp only [Tree.rank, hencode, hleafOf, hleaf, hplace, hrooted.leaves, hcount, bind, Except.bind,
    pure, Except.pure, hsmaller, h.length_eq, hindex, hlength, hpresent]
  rfl

omit [LawfulStore σ] [LinearOrder κ] [K.Lawful] [V.Lawful] in
/-- A key that cannot be encoded is refused. -/
theorem rank_refused {e : Error} (he : K.encode k = .error e) : t.rank k = .error e := by
  simp only [Tree.rank, he, bind, Except.bind]

/-- The key of a rank is that of the item at this index. -/
theorem keyAt?_run (h : g.Stores items R t) (i : Nat) :
    t.keyAt? i = .ok (items[i]?.map Prod.fst) := by
  obtain ⟨level, x, hrooted, hitems⟩ := h.holding
  rw [Tree.keyAt?, h.length_eq]
  by_cases hle : items.length ≤ i
  · rw [if_pos hle, List.getElem?_eq_none hle]
    rfl
  · rw [if_neg hle, hrooted.leaves, ← hitems, ← Subtree.flatMap_leaves]
    exact keyIn?_run fun y hy => hrooted.leaf hy

end Regime

end PagedMap
