/-
# Trees in stores that come from elsewhere

Whatever a store holds and whatever descriptor it tells: if the check passes, a scan and the
look-ups agree with each other (`Tree.verify_sound`). The way down to a key leads to the one
checked leaf that can have it (`Tree.Checked.leafBelow`), and a scan goes through all checked
leaves, the empty ones included (`Tree.Checked.iter`).

Key theorems: `Tree.Checked.leafBelow`, `Tree.Checked.lookup`, `Tree.Checked.iter`,
`Tree.verify_sound`.
-/
import PagedMap.Proofs.Tree.Checked
import PagedMap.Proofs.Tree.Scan

namespace PagedMap

/-- A cursor without bounds goes over all entries of a block, and nothing cuts it short. -/
theorem Block.cursor_unbounded {κ π : Type} {K : OrderedCodec κ} {P : Codec π} (b : Block K P) :
    b.cursor .unbounded .unbounded false = .ok (.ofRange 0 b.length b.length false) := by
  simp only [cursor, lowerIndex, upperIndex, bind, Except.bind, pure, Except.pure,
    Nat.max_zero]

namespace Tree

variable {σ κ ν : Type} [Store σ] [LinearOrder κ] {K : OrderedCodec κ} {V : Codec ν} [K.Lawful]
  {t : Tree σ K V} {level : Nat} {r : Span κ} {k : κ}

/-! ### The way to a key -/

/-- The search in a checked index block leads to the child within whose bounds the key is. -/
theorem CheckedIndex.route {x : Subtree κ ν (level + 1)} (h : t.CheckedIndex (t.Checked level) r x)
    (hk : r.Has k) (hw : K.Writes k) : ∃ place r' cs c ds,
      Block.searchBytes (t.indexWith x.keys (x.children.map Subtree.number)) (K.bytes k) =
        .ok place ∧
      Index.child (t.indexWith x.keys (x.children.map Subtree.number)) place.child =
        .ok c.number ∧
      x.children = cs ++ c :: ds ∧ t.Checked level r' c ∧ r'.Has k ∧
      (∀ i ∈ cs.flatMap (Subtree.items level), i.1 < k) ∧
      ∀ i ∈ ds.flatMap (Subtree.items level), k < i.1 := by
  have hlen : (x.children.map Subtree.number).length = x.keys.length + 1 := by
    rw [List.length_map, h.chain.length]
  obtain ⟨place, hplace, as, bs, hkeys, hchild, has, hbs⟩ :
      ∃ place, Block.searchBytes (t.indexWith x.keys (x.children.map Subtree.number)) (K.bytes k) =
        .ok place ∧ ∃ as bs, x.keys = as ++ bs ∧ as.length = place.child ∧ (∀ a ∈ as, a ≤ k) ∧
          ∀ b ∈ bs, k < b := Index.searchBytes_ofParts hlen h.writes h.ascending hw
  have hlt : place.child < x.children.length := by
    rw [h.chain.length, hkeys, List.length_append, ← hchild]
    omega
  obtain ⟨c, hc⟩ : ∃ c, x.children[place.child]? = some c := ⟨_, List.getElem?_eq_getElem hlt⟩
  have hchildren := eq_take_append_of_getElem? hc
  have hchain := h.chain
  rw [hkeys, hchildren, chain_focus (by rw [List.length_take, hchild]; omega)] at hchain
  obtain ⟨hbefore, hchecked, hafter⟩ := hchain
  have hwithin : ∀ (r : Span κ) (c : Subtree κ ν level), t.Checked level r c →
      ∀ i ∈ c.items level, r.Has i.1 := fun _ _ hc => hc.orderly.within
  have hnumber : Index.child (t.indexWith x.keys (x.children.map Subtree.number)) place.child =
      .ok c.number := Index.child_ofParts hlen h.writes (by rw [List.getElem?_map, hc]; rfl)
  refine ⟨place, _, _, c, _, hplace, hnumber, hchildren, hchecked, hk.between has hbs,
    fun i hi => ?_, fun i hi => ?_⟩
  · obtain ⟨a, ha, hia⟩ := hbefore.lt hwithin i hi
    exact lt_of_lt_of_le hia (has a ha)
  · obtain ⟨b, hb, hbi⟩ := hafter.le hwithin i hi
    exact lt_of_lt_of_le (hbs b hb) hbi

/-- The way down leads to a leaf between smaller and larger items. -/
theorem Checked.leafBelow (hw : K.Writes k) : ∀ {level : Nat} {r : Span κ}
    {x : Subtree κ ν level}, t.Checked level r x → r.Has k →
    ∃ (bs : List (LeafNode κ ν)) (y : LeafNode κ ν) (ds : List (LeafNode κ ν)),
      t.leafBelow (K.bytes k) level x.number = .ok y.number ∧ x.leaves level = bs ++ y :: ds ∧
      (∀ i ∈ bs.flatMap LeafNode.items, i.1 < k) ∧ ∀ i ∈ ds.flatMap LeafNode.items, k < i.1
  | 0, _, x, _, _ => ⟨[], x, [], rfl, rfl, by simp, by simp⟩
  | level + 1, r, x, h, hk => by
    obtain ⟨place, r', cs, c, ds, hplace, hchild, hchildren, hchecked, hhas, hbefore, hafter⟩ :=
      CheckedIndex.route h hk hw
    obtain ⟨ls, y, rs, hleaf, hleaves, hls, hrs⟩ := Checked.leafBelow hw hchecked hhas
    obtain ⟨bs, es, hx', hbs, hes⟩ :=
      Subtree.exists_leaf_of_child hchildren hleaves hbefore hls hrs hafter
    refine ⟨bs, y, es, ?_, hx', hbs, hes⟩
    simp only [Tree.leafBelow, h.readIndex, hplace, hchild, hleaf, bind, Except.bind]

/-- Looking up a key that can be encoded finds its item, if it has one. -/
theorem Checked.lookup [V.Lawful] {x : Subtree κ ν t.descriptor.indexLevels}
    (h : t.Checked t.descriptor.indexLevels Span.all x) (hroot : x.number = t.descriptor.root)
    (hw : K.Writes k) :
    ∃ o, (∀ v, (k, v) ∈ x.items t.descriptor.indexLevels ↔ v ∈ o) ∧ t.get? k = .ok o := by
  obtain ⟨bs, y, ds, hleaf, hleaves, hbelow, habove⟩ := h.leafBelow hw (Span.has_all k)
  obtain ⟨r, hy⟩ := h.leaves y (by simp [hleaves])
  obtain ⟨last, hread⟩ := hy.read
  have hleafOf : t.leafOf (K.bytes k) = .ok y.number := by rw [leafOf, ← hroot, hleaf]
  obtain ⟨o, ho, hget, -⟩ := lookup_leaf hw hleafOf hread hy.writes hy.orderly.ascending
  exact ⟨o, fun v => (Subtree.mem_items_iff hleaves hbelow habove v).trans (ho v), hget⟩

/-! ### The scan -/

/-- The way to the first leaf. -/
theorem Checked.endBelow : ∀ {level : Nat} {r : Span κ} {x : Subtree κ ν level},
    t.Checked level r x → ∃ (y : LeafNode κ ν) (ds : List (LeafNode κ ν)),
      t.endBelow false level x.number = .ok y.number ∧ x.leaves level = y :: ds
  | 0, _, x, _ => ⟨x, [], rfl, rfl⟩
  | level + 1, r, x, h => by
    have hlen := (CheckedIndex.chain h).length
    obtain ⟨c, cs, hchildren⟩ : ∃ c cs, x.children = c :: cs :=
      List.exists_cons_of_length_pos (by omega)
    obtain ⟨r', hchecked⟩ := (CheckedIndex.chain h).of_mem c (by simp [hchildren])
    obtain ⟨y, ds, hend, hleaves⟩ := hchecked.endBelow
    have hchild : Index.child (t.indexWith x.keys (x.children.map Subtree.number)) 0 =
        .ok c.number :=
      Index.child_ofParts (by rw [List.length_map, hlen]) (CheckedIndex.writes h)
        (by rw [hchildren]; rfl)
    refine ⟨y, ds ++ cs.flatMap (Subtree.leaves level), ?_, ?_⟩
    · simp only [Tree.endBelow, h.readIndex, hchild, hend, bind, Except.bind,
        Bool.false_eq_true, ↓reduceIte]
    · rw [Subtree.leaves, hchildren, List.flatMap_cons, hleaves, List.cons_append]

/-- The leaves are listed in order. -/
theorem Checked.blocksBelow : ∀ {level : Nat} {r : Span κ} {x : Subtree κ ν level},
    t.Checked level r x →
    t.blocksBelow level x.number = .ok (x.indexNumbers level, x.leafNumbers level)
  | 0, _, _, _ => rfl
  | level + 1, r, x, h => by
    have hlen := (CheckedIndex.chain h).length
    have hchildren : Index.children (t.indexWith x.keys (x.children.map Subtree.number)) =
        .ok (x.children.map Subtree.number) :=
      Index.children_ofParts (by rw [List.length_map, hlen]) (CheckedIndex.writes h)
    have hbelow : (x.children.map Subtree.number).mapM (t.blocksBelow level) =
        .ok (x.children.map fun c => (c.indexNumbers level, c.leafNumbers level)) := by
      refine mapM_map_ok fun c hc => ?_
      obtain ⟨r', hchecked⟩ := (CheckedIndex.chain h).of_mem c hc
      exact hchecked.blocksBelow
    simp only [Tree.blocksBelow, h.readIndex, hchildren, hbelow, bind, Except.bind, pure,
      Except.pure, List.flatMap_map]
    rfl

variable [V.Lawful]

/-- A scan without bounds goes through all items of leaves that can be read. -/
theorem scanLeaves_checked : ∀ {ls : List (LeafNode κ ν)},
    (∀ y ∈ ls, ∃ r, t.CheckedLeaf r y) →
    t.scanLeaves false .unbounded .unbounded (ls.map LeafNode.number) =
      (ls.flatMap LeafNode.items).map .ok
  | [], _ => rfl
  | y :: ls, h => by
    obtain ⟨⟨r, hy⟩, hls⟩ := List.forall_mem_cons.1 h
    obtain ⟨last, hread⟩ := hy.read
    have hlen : (t.leafWith y.items last).length = y.items.length := Block.length_ofItems
    have hopen : t.openLeaf false .unbounded .unbounded y.number =
        .ok (t.leafWith y.items last, .ofRange 0 y.items.length y.items.length false) := by
      simp only [openLeaf, hread, Block.cursor_unbounded, hlen, bind, Except.bind, pure,
        Except.pure]
    have hvisit : (Cursor.ofRange 0 y.items.length y.items.length false).visitAll.1 =
        List.range' 0 y.items.length := by
      have hrange := Cursor.visitAll_ofRange 0 y.items.length y.items.length false
      rw [Nat.zero_add] at hrange
      exact hrange
    have hcut : (Cursor.ofRange 0 y.items.length y.items.length false).isCut = false :=
      decide_eq_false (lt_irrefl _)
    have hitem : List.Forall₂ (fun i entry => (t.leafWith y.items last).item i = .ok entry)
        (List.range' 0 y.items.length) y.items := by
      have hall : List.Forall₂ (fun i entry => (t.leafWith ([] ++ (y.items ++ [])) last).item i =
          .ok entry) (List.range' 0 y.items.length) y.items :=
        Block.items_range' (by simpa using hy.writes)
      rwa [List.nil_append, List.append_nil] at hall
    rw [List.map_cons, scanLeaves, hopen]
    dsimp only
    rw [hvisit, scanItems_eq hitem, hcut, scanLeaves_checked hls, if_neg Bool.false_ne_true,
      List.flatMap_cons, List.map_append]

/-- A scan without bounds gives all items. -/
theorem Checked.iter {x : Subtree κ ν t.descriptor.indexLevels}
    (h : t.Checked t.descriptor.indexLevels r x) (hroot : x.number = t.descriptor.root) :
    t.iter = .ok ((x.items t.descriptor.indexLevels).map .ok) := by
  obtain ⟨y, ds, hend, hleaves⟩ := h.endBelow
  have hlist : t.leaves = .ok ((y :: ds).map LeafNode.number) := by
    rw [Tree.leaves, blocks_eq, ← hroot, h.blocksBelow, ← hleaves, Subtree.map_leaves]
    rfl
  have hstart : t.startLeaf false .unbounded .unbounded = .ok y.number := by
    rw [startLeaf]
    change t.endLeaf false = _
    rw [endLeaf, ← hroot, hend]
  have hfind : ((y :: ds).map LeafNode.number).findIdx? (· = y.number) = some 0 := by
    rw [List.map_cons, List.findIdx?_cons, decide_eq_true rfl]
    rfl
  have hitems : (y :: ds).flatMap LeafNode.items = x.items t.descriptor.indexLevels := by
    rw [← hleaves, Subtree.flatMap_leaves]
  have hchecked : ∀ z ∈ y :: ds, ∃ r, t.CheckedLeaf r z := fun z hz => h.leaves z (hleaves ▸ hz)
  have hscan := scanLeaves_checked hchecked
  rw [hitems] at hscan
  simp only [Tree.iter, scan, hlist, hstart, hfind, bind, Except.bind, pure, Except.pure,
    List.drop_zero, Bool.false_eq_true, ↓reduceIte, hscan]

/-! ### A tree that passes its check -/

omit [V.Lawful] in
/-- A tree that passes its check is a checked subtree of as many items as it tells. -/
theorem exists_checked_root [K.Faithful] [V.Faithful] (h : t.verify = .ok ()) :
    ∃ x : Subtree κ ν t.descriptor.indexLevels, x.number = t.descriptor.root ∧
      t.Checked t.descriptor.indexLevels Span.all x ∧
      (x.items t.descriptor.indexLevels).length = t.length := by
  obtain ⟨count, hcount, h⟩ := exists_of_bind_eq_ok h
  obtain rfl : count = t.length := by
    by_contra hne
    rw [if_pos hne] at h
    cases h
  exact exists_checked (r := Span.all)
    ⟨(fun _ hk => nomatch hk), (fun _ hk => nomatch hk)⟩ hcount

/-- Whatever the store holds: if a tree of integers and byte strings passes its check, then
the scan gives as many entries as the tree tells, in ascending order, and looking up a key
gives what the scan has for it. -/
theorem verify_sound (key value : KeyKind) (hkey : key ≠ .text) (hvalue : value ≠ .text)
    {t : Tree σ key.codec value.codec.toCodec} (h : t.verify = .ok ()) :
    ∃ items : List (key.Item × value.Item), t.iter = .ok (items.map .ok) ∧
      items.length = t.length ∧ Ascending items ∧ (∀ i ∈ items, t.get? i.1 = .ok (some i.2)) ∧
      ∀ k, key.codec.Writes k → (∀ i ∈ items, i.1 ≠ k) → t.get? k = .ok none := by
  have := KeyKind.codec_faithful hkey
  have := KeyKind.codec_faithful hvalue
  obtain ⟨x, hroot, hchecked, hlength⟩ := exists_checked_root h
  refine ⟨x.items t.descriptor.indexLevels, hchecked.iter hroot, hlength,
    hchecked.orderly.ascending, fun i hi => ?_, fun k hw hk => ?_⟩
  · obtain ⟨r, y, hy, hiy⟩ : ∃ r y, t.CheckedLeaf r y ∧ i ∈ y.items := by
      rw [← Subtree.flatMap_leaves] at hi
      obtain ⟨y, hy, hiy⟩ := List.mem_flatMap.1 hi
      obtain ⟨r, hleaf⟩ := hchecked.leaves y hy
      exact ⟨r, y, hleaf, hiy⟩
    obtain ⟨o, ho, hget⟩ := hchecked.lookup hroot (hy.writes i hiy).1
    rw [hget, Option.mem_def.1 ((ho i.2).1 hi)]
  · obtain ⟨o, ho, hget⟩ := hchecked.lookup hroot hw
    cases o with
    | none => exact hget
    | some v => exact (hk _ ((ho v).2 rfl) rfl).elim

/-- A tree that no calls have made: under a root without separators lies an index block that
has one empty leaf as two of its children. -/
def foreign : Tree Device word32 word32.toCodec :=
  let blocks : List Bytes := [
    [],
    [0, 0, 0, 1, 0, 0, 0, 0, 0, 0, 0, 5, 0, 0, 0, 50],
    [0, 0, 0, 2, 0, 0, 0, 1, 0, 0, 0, 3, 0, 0, 0, 0, 0, 0, 0, 5, 0, 0, 0, 0],
    [0, 0, 0, 0, 0, 0, 0, 2]]
  ⟨(blocks.mapM (Store.allocate .leaf) Device.small).2, ⟨3, 1, 1⟩, false⟩

/-- The foreign tree passes its check, and has one entry. -/
theorem verify_sound_foreign : foreign.verify = .ok () ∧ foreign.iter = .ok [.ok (5, 50)] ∧
    foreign.get? 5 = .ok (some 50) ∧ foreign.get? 3 = .ok none := by
  have hverify : foreign.verify = .ok () := eq_ok_of_toOption (by decide +kernel)
  obtain ⟨items, hiter, hfound, hnone⟩ : ∃ items : List (UInt32 × UInt32),
      foreign.iter = .ok (items.map .ok) ∧ (∀ i ∈ items, foreign.get? i.1 = .ok (some i.2)) ∧
        ∀ k, (∀ i ∈ items, i.1 ≠ k) → foreign.get? k = .ok none := by
    obtain ⟨items, hiter, -, -, hfound, hnone⟩ := verify_sound .word32 .word32 nofun nofun hverify
    exact ⟨items, hiter, hfound, fun k => hnone k (word32_writes k)⟩
  obtain rfl : items = [(5, 50)] := by
    have hshown : foreign.iter.toOption.map (·.map Except.toOption) = some [some (5, 50)] := by
      decide +kernel
    rw [hiter] at hshown
    have hmap : items.map some = [some (5, 50)] := by
      simpa [Except.toOption, Function.comp_def] using hshown
    exact List.map_injective_iff.2 (Option.some_injective _) hmap
  have hother : ∀ i ∈ [((5, 50) : UInt32 × UInt32)], i.1 ≠ 3 := by
    intro i hi
    rw [List.mem_singleton.1 hi]
    decide
  exact ⟨hverify, hiter, hfound (5, 50) (List.mem_singleton_self _), hnone 3 hother⟩

end Tree

end PagedMap
