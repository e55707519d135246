/-
# What a call that fails leaves behind

Nothing is undone when a call fails. A call that changes what one key has either fails
before it has changed anything, or for want of a block when it has cut one in two. The lower
half is then in the block's place, and what the upper half has is lost, and nothing else
(`Tree.LosesUpperHalf`): the tree tells its length as if nothing was, and of the keys that
the half has that they have nothing (`Tree.failed_update_loses`). So a call that fails may
lose entries (`Tree.failed_insert_forgets`).

Key definitions: `Tree.Leads`, `Tree.CutInTwo`, `Tree.LosesUpperHalf`.
Key theorems: `Regime.leads_run`, `Regime.cutInTwo_run`, `Regime.Misses.loses`,
`Regime.Stores.failed_call`, `Tree.failed_update_loses`.
-/
import PagedMap.Proofs.Tree.Refinement
import PagedMap.Proofs.Tree.Structure

namespace PagedMap

/-- Of items in ascending order, those that are left are those of other keys than the lost
ones have. -/
theorem mem_append_iff_of_ascending {κ ν : Type} [LinearOrder κ] {xs lost ys : List (κ × ν)}
    (h : Ascending (xs ++ (lost ++ ys))) (i : κ × ν) :
    i ∈ xs ++ ys ↔ i ∈ xs ++ (lost ++ ys) ∧ i.1 ∉ lost.map Prod.fst := by
  obtain ⟨-, hrest, hxs⟩ := ascending_append.1 h
  obtain ⟨-, -, hys⟩ := ascending_append.1 hrest
  have hbefore : i ∈ xs → i.1 ∉ lost.map Prod.fst := by
    intro hi hmem
    obtain ⟨j, hj, heq⟩ := List.mem_map.1 hmem
    exact absurd heq (ne_of_gt (hxs i hi j (List.mem_append_left _ hj)))
  have hafter : i ∈ ys → i.1 ∉ lost.map Prod.fst := by
    intro hi hmem
    obtain ⟨j, hj, heq⟩ := List.mem_map.1 hmem
    exact absurd heq (ne_of_lt (hys j hj i hi))
  have hlost : i ∈ lost → i.1 ∈ lost.map Prod.fst := fun hi => List.mem_map_of_mem hi
  simp only [List.mem_append]
  tauto

namespace Tree

variable {σ κ ν : Type} [Store σ] [LinearOrder κ] {K : OrderedCodec κ} {V : Codec ν}

/-- The items that are found below the children of an index block. -/
def HasBelow (t : Tree σ K V) (levels : Nat) (node : Index K) (items : List (κ × ν)) : Prop :=
  ∃ (children : List BlockNumber) (parts : List (List (κ × ν))),
    Index.children node = .ok children ∧ List.Forall₂ (t.Below levels) children parts ∧
    items = parts.flatten

/-- The way from a block down to block `b`, which has `bottom` levels of index blocks. These
items are found below the children that are passed on either side. -/
inductive Leads (t : Tree σ K V) (bottom : Nat) (b : BlockNumber) :
    Nat → BlockNumber → List (κ × ν) → List (κ × ν) → Prop
  | here : Leads t bottom b bottom b [] []
  | child {levels : Nat} {n c : BlockNumber} {node : Index K} {cs ds : List BlockNumber}
      {lefts rights : List (List (κ × ν))} {before after : List (κ × ν)} :
      t.readIndex n = .ok node → Index.children node = .ok (cs ++ c :: ds) →
      List.Forall₂ (t.Below levels) cs lefts → List.Forall₂ (t.Below levels) ds rights →
      Leads t bottom b levels c before after →
      Leads t bottom b (levels + 1) n (lefts.flatten ++ before) (after ++ rights.flatten)

/-- A block that had become too large was cut in two. Its lower half is in its place, and these
are the items of both halves. -/
def CutInTwo (t : Tree σ K V) : Nat → BlockNumber → List (κ × ν) → List (κ × ν) → Prop
  | 0, n, kept, lost =>
    ∃ whole lower upper : Leaf K V, whole.isOverflowed = true ∧
      Block.split whole = (.ok upper, lower) ∧ t.readLeaf n = .ok lower ∧
      lower.items = kept.map .ok ∧ upper.items = lost.map .ok
  | levels + 1, n, kept, lost =>
    ∃ (whole lower upper : Index K) (key : Bytes), whole.isOverflowed = true ∧
      Index.promote whole = (.ok (key, upper), lower) ∧ t.readIndex n = .ok lower ∧
      t.HasBelow levels lower kept ∧ t.HasBelow levels upper lost

/-- The tree should have the items, but of a block that was cut in two the upper half is not
reached, with the lost items: there was no block for it; or the block was the root, and there
was one for the upper half but none for the root above the halves. -/
def LosesUpperHalf (t : Tree σ K V) (e : Error) (items lost : List (κ × ν)) : Prop :=
  ∃ (level : Nat) (n : BlockNumber) (before kept after : List (κ × ν)),
    items = before ++ (kept ++ (lost ++ after)) ∧ kept ≠ [] ∧ lost ≠ [] ∧
    t.Leads level n t.descriptor.indexLevels t.descriptor.root before after ∧
    t.CutInTwo level n kept lost ∧
    (IsFull (Regime.kind level) e ∨
      level = t.descriptor.indexLevels ∧ (∃ right, t.Below level right lost) ∧ IsFull .index e)

end Tree

namespace Regime

variable {σ κ ν : Type} [Store σ] [LawfulStore σ] [LinearOrder κ] {K : OrderedCodec κ}
  {V : Codec ν} [K.Lawful] [V.Lawful] {g : Regime K V} {R : Heap} {t t' : Tree σ K V}
  {items : List (κ × ν)} {c : Call κ ν} {e : Error} {level bottom : Nat} {r : Span κ} {k : κ}
  {before after : List (κ × ν)}

/-! ### The block that was cut in two -/

omit [K.Lawful] [V.Lawful] [LinearOrder κ] in
/-- The blocks of a subtree are blocks of those that lead to it. -/
theorem cells_of_leads {y : Subtree κ ν bottom} {x : Subtree κ ν level}
    (h : y.Leads level x before after) : ∀ q ∈ g.cells bottom y, q ∈ g.cells level x := by
  induction h with
  | here => exact fun _ hq => hq
  | child hchildren _ ih =>
    intro q hq
    rw [cells, hchildren]
    exact List.mem_cons_of_mem _ (List.mem_flatMap.2 ⟨_, by simp, ih q hq⟩)

/-- The way down in a sound subtree is found in the store. -/
theorem leads_run (h : g.On t) {y : Subtree κ ν bottom} {x : Subtree κ ν level}
    (hleads : y.Leads level x before after) : ∀ {r : Span κ}, g.Fair level r x →
    g.mass level x ≤ g.room level → (∀ q ∈ g.cells level x, heap t q.1 = some q.2) →
    t.Leads bottom y.number level x.number before after := by
  induction hleads with
  | here => exact fun _ _ _ => .here
  | @child level x cs ds c before after hchildren _ ih =>
    intro r hx hmass hcells
    have hread := readIndex_eq h (hcells _ (List.mem_cons_self ..)) (FairNode.fits hx)
      (FairNode.length hx) hmass
    have hnumbers : Index.children (g.node x.keys (x.children.map Subtree.number)) =
        .ok (cs.map Subtree.number ++ c.number :: ds.map Subtree.number) := by
      rw [node, Index.children_ofParts (FairNode.length hx)
        fun k hk => (FairNode.fits hx k hk).writes, hchildren, List.map_append, List.map_cons]
    have hsound : ∀ d ∈ cs ++ c :: ds, ∃ r, g.Sound level r d := fun d hd =>
      (FairNode.chain hx).of_mem d (hchildren ▸ hd)
    have hbelow : ∀ d ∈ cs ++ c :: ds, ∀ q ∈ g.cells level d, heap t q.1 = some q.2 :=
      fun d hd q hq => hcells q (List.mem_cons_of_mem _
        (List.mem_flatMap.2 ⟨d, hchildren ▸ hd, hq⟩))
    have hlefts := forall₂_below h (fun d hd => hsound d (List.mem_append_left _ hd))
      fun d hd => hbelow d (List.mem_append_left _ hd)
    have hrights := forall₂_below h
      (fun d hd => hsound d (List.mem_append_right _ (List.mem_cons_of_mem _ hd)))
      fun d hd => hbelow d (List.mem_append_right _ (List.mem_cons_of_mem _ hd))
    obtain ⟨s, hc⟩ := hsound c (by simp)
    rw [List.flatMap_def, List.flatMap_def]
    exact .child hread hnumbers hlefts hrights
      (ih hc.fair hc.tight.mass_le (hbelow c (by simp)))

/-- The children of a sound index block are found in the store. -/
theorem hasBelow_run (h : g.On t) {x : Subtree κ ν (level + 1)}
    (hx : g.FairNode (g.Sound level) r x)
    (hcells : ∀ q ∈ g.below (level + 1) x, heap t q.1 = some q.2) :
    t.HasBelow level (g.block x) (x.items (level + 1)) :=
  ⟨_, _, Index.children_ofParts (FairNode.length hx) fun k hk => (hx.fits k hk).writes,
    forall₂_below h hx.chain.of_mem fun _ hd q hq =>
      hcells q (List.mem_flatMap.2 ⟨_, hd, hq⟩), List.flatMap_def ..⟩

/-- The halves of a block are found in the store, but for the block of the upper one. -/
theorem cutInTwo_run (h : g.On t) : ∀ {level : Nat} {y z : Subtree κ ν level},
    g.Halves level r y k z → (∀ q ∈ g.cells level y, heap t q.1 = some q.2) →
    (∀ q ∈ g.below level z, heap t q.1 = some q.2) →
    t.CutInTwo level y.number (y.items level) (z.items level)
  | 0, _, _, hhalves, hcells, _ =>
    ⟨_, _, _, hhalves.cuts.1, hhalves.cuts.2,
      readLeaf_eq h (hcells _ (List.mem_cons_self ..)) hhalves.lower.1.fits
        hhalves.lower.2.mass_le,
      Block.items_ofItems fun i hi => (hhalves.lower.1.fits i hi).writes,
      Block.items_ofItems fun i hi => (hhalves.upper.1.fits i hi).writes⟩
  | _ + 1, _, _, hhalves, hcells, hbelow =>
    ⟨_, _, _, _, hhalves.cuts.1, hhalves.cuts.2,
      readIndex_eq h (hcells _ (List.mem_cons_self ..)) hhalves.lower.1.fits
        (FairNode.length hhalves.lower.1) hhalves.lower.2.mass_le,
      hasBelow_run h hhalves.lower.1 fun q hq => hcells q (List.mem_cons_of_mem _ hq),
      hasBelow_run h hhalves.upper.1 hbelow⟩

/-! ### What is lost -/

/-- What a tree misses that lacks an upper half, and what it tells of the keys. -/
theorem Misses.loses (h : g.Misses items e t) (hs : Ascending items) :
    ∃ lost, t.LosesUpperHalf e items lost ∧
      ∀ k, K.Writes k → ∃ o, t.get? k = .ok o ∧
        ∀ v, v ∈ o ↔ (k, v) ∈ items ∧ k ∉ lost.map Prod.fst := by
  obtain ⟨level, x, R, bottom, z, hrooted, ⟨r, y, k, before, after, hleads, hhalves, rfl⟩,
    hwhy⟩ := h
  have hcells : ∀ q ∈ g.cells level x, heap t q.1 = some q.2 := fun _ => hrooted.holds.get
  have hcells' {others : List Cell} {S : Heap} (hR : R.Holds others S) :
      ∀ q ∈ others, heap t q.1 = some q.2 := fun q hq =>
    (Heap.holds_append.2 ⟨R, hrooted.holds, hR⟩).get (List.mem_append_right _ hq)
  have hway := leads_run hrooted.on hleads hrooted.sound.fair hrooted.sound.mass_le hcells
  have hbelow : ∀ q ∈ g.below bottom z, heap t q.1 = some q.2 := by
    rcases hwhy with ⟨⟨S, hS⟩, -⟩ | ⟨-, ⟨S, hS⟩, -⟩
    · exact hcells' hS
    · exact fun q hq => hcells' hS q (g.cells_eq .. ▸ List.mem_cons_of_mem _ hq)
  have hcut := cutInTwo_run hrooted.on hhalves
    (fun q hq => hcells q (cells_of_leads hleads q hq)) hbelow
  refine ⟨z.items bottom, ⟨bottom, y.number, before, y.items bottom, after, rfl,
    hhalves.lower.fills.ne_nil, hhalves.upper.fills.ne_nil, ?_, hcut, ?_⟩, fun a ha => ?_⟩
  · rw [hrooted.indexLevels_eq, hrooted.root_eq]
    exact hway
  · rcases hwhy with ⟨-, he⟩ | ⟨rfl, ⟨S, hS⟩, he⟩
    · exact .inl he
    · exact .inr ⟨hrooted.indexLevels_eq.symm,
        ⟨z.number, hhalves.upper.below_run hrooted.on (hcells' hS)⟩, he⟩
  · have hleft : g.Holding ((before ++ y.items bottom) ++ after) R t :=
      ⟨level, x, hrooted, by rw [hleads.items_eq, List.append_assoc]⟩
    obtain ⟨o, ho, hget, -⟩ := lookup_run hleft ha
    refine ⟨o, hget, fun v => (ho v).symm.trans ?_⟩
    rw [← List.append_assoc] at hs ⊢
    exact mem_append_iff_of_ascending hs (a, v)

/-- A call that changes what one key has and fails has changed nothing, or lost some of the
items that it should have made. -/
theorem Stores.failed_call (h : g.Stores items R t) (hc : c.isUpdate = true)
    (hrun : Tree.call c t = (.error e, t')) : t' = t ∨ g.Leaves c items e t' :=
  ((update_call_ends h hc).of_error hrun).imp_left And.left

/-- What a tree tells of a key when the items of an upper half are lost. -/
theorem Leaves.lookup {m : Map κ ν} (h : g.Leaves c m.toList e t') :
    t'.length = (c.onMap m).2.size ∧ ∃ lost, t'.LosesUpperHalf e (c.onMap m).2.toList lost ∧
      ∀ k, t'.get? k = (K.encode k).map fun _ =>
        if k ∈ lost.map Prod.fst then none else (c.onMap m).2[k]? := by
  obtain ⟨o, items', houtcome, hs', hmisses, hsize⟩ := h
  obtain ⟨m', hmap, rfl⟩ := Call.onMap_outcome houtcome (ascending_toList m) hs' rfl
  obtain ⟨lost, hloses, hlookup⟩ := hmisses.loses hs'
  rw [hmap]
  refine ⟨?_, lost, hloses, fun k => ?_⟩
  · rw [Tree.length, Descriptor.length, hsize, ← Std.TreeMap.length_toList]
    simp
  · cases hencode : K.encode k with
    | error e => exact (Tree.lookup_refused hencode).1
    | ok b =>
      obtain ⟨o', hget, ho'⟩ := hlookup k (Codec.writes_of_encode hencode)
      rw [hget]
      refine congrArg Except.ok (Option.ext fun v => ?_)
      rw [← Option.mem_def, ho', mem_iff_getElem? rfl]
      by_cases hlost : k ∈ lost.map Prod.fst
      · simp [hlost]
      · simp [hlost]

end Regime

namespace Tree

variable {κ ν : Type} [LinearOrder κ] {K : OrderedCodec κ} {V : Codec ν} [K.Lawful] [V.Lawful]

/-- If a call that changes what one key has fails then it has changed nothing; or a pool is
full, the length is what it would have been, and every key has what it would have had, but
for the keys of the upper half of one block, which have nothing any more. -/
theorem failed_update_loses {s : Device} {t t' : Tree Device K V} {c : Call κ ν} {e : Error}
    (hs : s.Used) (hblank : IsBlank s) (ht : Reachable K V s t) (hc : c.isUpdate = true)
    (hrun : call c t = (.error e, t')) :
    ∃ m : Map κ ν, t.length = m.size ∧ (∀ k, t.get? k = (K.encode k).map fun _ => m[k]?) ∧
      (t' = t ∨ IsOutOfSpace e ∧ t'.length = (c.onMap m).2.size ∧
        ∃ lost, t'.LosesUpperHalf e (c.onMap m).2.toList lost ∧
          ∀ k, t'.get? k = (K.encode k).map fun _ =>
            if k ∈ lost.map Prod.fst then none else (c.onMap m).2[k]?) := by
  obtain ⟨items, hstores⟩ := Regime.reachable_stores hs.valid hblank ht
  obtain ⟨m, rfl⟩ : ∃ m : Map κ ν, m.toList = items := ⟨_, toList_ofList hstores.ascending⟩
  refine ⟨m, hstores.length_eq.trans Std.TreeMap.length_toList, fun k => (hstores.lookup k).1, ?_⟩
  exact (hstores.failed_call hc hrun).imp_right fun h => ⟨h.isOutOfSpace, h.lookup⟩

/-- A store in memory with a single block of 32 bytes. -/
def single : Device := .memory ⟨.empty 32 1, none, 20, []⟩

theorem single_fresh : Device.Fresh
    { blockSize := 32, maxBlocks := 1, regionBlockSize := 32, reserveSize := 20 } single :=
  .shared rfl

/-- There is no block for the upper half of a leaf that four entries do not fit into. -/
theorem failed_update_loses_single : ∃ (t t' : Tree Device word32 word32.toCodec) (e : Error)
    (items lost : List (KeyKind.word32.Item × KeyKind.word32.Item)),
    Reachable word32 word32.toCodec single t ∧ insert 4 40 t = (.error e, t') ∧ IsOutOfSpace e ∧
      items.length = 4 ∧ LosesUpperHalf (κ := KeyKind.word32.Item) t' e items lost ∧
      ∀ k ∈ lost.map Prod.fst, t'.get? k = .ok none := by
  obtain ⟨⟨answers, t⟩, hrun, hfound⟩ := exists_ok_of_toOption
    (f := fun r => ((insert 4 40 r.2).1.toOption, r.2.length, (insert 4 40 r.2).2.length))
    (b := (none, 3, 4))
    (x := session word32 word32.toCodec single (Device.smallCalls.take 3)) (by decide +kernel)
  obtain ⟨hfails, hlength, hlength'⟩ : (insert 4 40 t).1.toOption = none ∧ t.length = 3 ∧
      (insert 4 40 t).2.length = 4 := by simpa using hfound
  obtain ⟨e, he⟩ := exists_error_of_toOption hfails
  have hinsert : insert 4 40 t = (.error e, (insert 4 40 t).2) := Prod.ext he rfl
  have ht := reachable_of_session hrun
  obtain ⟨m, -, -, hsame | ⟨hspace, hsize, lost, hloses, hget⟩⟩ :=
    failed_update_loses (K := KeyKind.word32.codec) (V := (ValueKind.key .word32).codec)
      (c := .insert (4 : UInt32) (40 : UInt32)) (.fresh single_fresh) ⟨_, rfl, rfl⟩ ht rfl hinsert
  · rw [hsame] at hlength'
    exact absurd (hlength.symm.trans hlength') (by decide)
  · refine ⟨t, _, e, _, lost, ht, hinsert, hspace, ?_, hloses, fun k hk => ?_⟩
    · exact Std.TreeMap.length_toList.trans (hsize.symm.trans hlength')
    · exact (hget k).trans (congrArg Except.ok (if_pos hk))

/-- An entry that could not be put in has made the tree forget another. -/
theorem failed_insert_forgets : ∃ (o : Options) (t t' : Tree Device word32 word32.toCodec)
    (e : Error), Device.Fresh o single ∧ Reachable word32 word32.toCodec single t ∧
      insert 4 40 t = (.error e, t') ∧ t.length = 3 ∧ t'.length = 4 ∧ t.get? 3 = .ok (some 30) ∧
      t'.get? 3 = .ok none := by
  obtain ⟨⟨answers, t⟩, hrun, hfound⟩ := exists_ok_of_toOption
    (f := fun r => (insert 4 40 r.2).1.toOption == none && r.2.length == 3 &&
      (insert 4 40 r.2).2.length == 4 && (r.2.get? 3).toOption == some (some 30) &&
      ((insert 4 40 r.2).2.get? 3).toOption == some none) (b := true)
    (x := session word32 word32.toCodec single (Device.smallCalls.take 3)) (by decide +kernel)
  obtain ⟨⟨⟨⟨hfails, hlength⟩, hlength'⟩, hget⟩, hget'⟩ : ((((insert 4 40 t).1.toOption = none ∧
      t.length = 3) ∧ (insert 4 40 t).2.length = 4) ∧ (t.get? 3).toOption = some (some 30)) ∧
      ((insert 4 40 t).2.get? 3).toOption = some none := by simpa using hfound
  obtain ⟨e, he⟩ := exists_error_of_toOption hfails
  exact ⟨_, t, _, e, single_fresh, reachable_of_session hrun, Prod.ext he rfl, hlength, hlength',
    eq_ok_of_toOption hget, eq_ok_of_toOption hget'⟩

end Tree

end PagedMap
