/-
# What a scan goes through

A scan opens one leaf after the other. Of the items of a leaf it gives those within the
bounds, and where it stops early the far bound keeps out the items of all further leaves
(`Regime.scanLeaves_run`). It begins at a leaf beyond which, on the near side, the near
bound keeps everything out (`Regime.Rooted.startLeaf`). So it gives the items of the tree
that are within the bounds (`Regime.scan_run`, `Tree.session_scans`).

Key definition: `Regime.Follows`.
Key theorems: `Regime.scanLeaves_run`, `Regime.scan_run`, `Tree.session_scans`.
-/
import Mathlib.Data.List.Forall2
import PagedMap.Proofs.Block.Cursor
import PagedMap.Proofs.Tree.Blocks
import PagedMap.Proofs.Tree.Refinement
import PagedMap.Tree.Scan

namespace PagedMap

section Lists

variable {α β : Type}

/-- Going through lists and through each of them in the same order. -/
theorem flatMap_inOrder (descending : Bool) (xs : List α) (f : α → List β) :
    (inOrder descending xs).flatMap (fun x => inOrder descending (f x)) =
      inOrder descending (xs.flatMap f) := by
  cases descending with
  | false => rfl
  | true => simp [inOrder, List.flatMap_reverse, Function.comp_def]

@[simp]
theorem mem_inOrder {descending : Bool} {x : α} {xs : List α} :
    x ∈ inOrder descending xs ↔ x ∈ xs := by
  cases descending <;> simp [inOrder]

@[simp]
theorem inOrder_eq_nil {descending : Bool} {xs : List α} :
    inOrder descending xs = [] ↔ xs = [] := by
  cases descending <;> simp [inOrder]

theorem forall₂_inOrder {r : α → β → Prop} {xs : List α} {ys : List β} (descending : Bool)
    (h : List.Forall₂ r xs ys) :
    List.Forall₂ r (inOrder descending xs) (inOrder descending ys) := by
  cases descending with
  | false => exact h
  | true => exact List.forall₂_reverse_iff.2 h

end Lists

/-! ### The items of one leaf -/

namespace Tree

variable {σ κ ν : Type} {K : OrderedCodec κ} {V : Codec ν} {leaf : Leaf K V}
  {after : List (Except Error (κ × ν))}

/-- The entries at indices at which items are read are these items. -/
theorem scanItems_eq : ∀ {is : List Nat} {items : List (κ × ν)},
    List.Forall₂ (fun i entry => leaf.item i = .ok entry) is items →
    scanItems leaf after is = items.map .ok ++ after
  | _, _, .nil => rfl
  | _, _, .cons h hrest => by
    rw [scanItems, h]
    exact congrArg _ (scanItems_eq hrest)

end Tree

theorem Block.items_range' {κ π : Type} [LinearOrder κ] {K : OrderedCodec κ} {P : Codec π}
    [K.Lawful] [P.Lawful] {capacity : Nat} {last : BlockNumber} {zs : List (κ × π)} :
    ∀ {xs ys : List (κ × π)}, (∀ i ∈ xs ++ (ys ++ zs), WritesItem K P i) →
      List.Forall₂ (fun i entry => (ofItems K P capacity (xs ++ (ys ++ zs)) last).item i = .ok entry)
        (List.range' xs.length ys.length) ys
  | _, [], _ => .nil
  | xs, y :: ys, hw => by
    have hy : (ofItems K P capacity (xs ++ (y :: ys ++ zs)) last).item xs.length = .ok y :=
      item_ofItems (by simp) (hw y (by simp))
    have hrest : List.Forall₂ (fun i entry =>
        (ofItems K P capacity (xs ++ [y] ++ (ys ++ zs)) last).item i = .ok entry)
        (List.range' (xs ++ [y]).length ys.length) ys := items_range' (by simpa using hw)
    rw [List.append_assoc, List.length_append] at hrest
    exact .cons hy hrest

namespace Regime

variable {σ κ ν : Type} [Store σ] [LawfulStore σ] [LinearOrder κ] {K : OrderedCodec κ}
  {V : Codec ν} [K.Lawful] [V.Lawful] {g : Regime K V} {R : Heap} {t : Tree σ K V}
  {items : List (κ × ν)} {level : Nat} {lower upper : Bound κ} {descending : Bool}

/-! ### The leaves one after the other -/

/-- In the order of the scan the items of one leaf come after those of another. -/
def Follows (descending : Bool) (x y : LeafNode κ ν) : Prop :=
  ∀ i ∈ x.items, ∀ j ∈ y.items, if descending then j.1 < i.1 else i.1 < j.1

/-- If the far bound cut a leaf short, it keeps out what comes after the leaf. -/
theorem filter_eq_nil_of_isCut {xs ys zs : List (κ × ν)} {x : LeafNode κ ν}
    {ls : List (LeafNode κ ν)} (hitems : x.items = xs ++ (ys ++ zs))
    (hxs : ∀ i ∈ xs, lower.liesBelow i.1 = false) (hzs : ∀ i ∈ zs, upper.liesAbove i.1 = false)
    (hfollows : ∀ y ∈ ls, Follows descending x y)
    (hcut : (Cursor.ofRange xs.length (xs.length + ys.length) x.items.length
      descending).isCut = true) :
    ∀ y ∈ ls, y.items.filter (within lower upper) = [] := by
  intro y hy
  rw [List.filter_eq_nil_iff]
  intro j hj hwithin
  obtain ⟨hbelow, habove⟩ := Bool.and_eq_true_iff.1 hwithin
  cases descending with
  | true =>
    obtain ⟨i, hi⟩ : ∃ i, i ∈ xs := List.exists_mem_of_length_pos (of_decide_eq_true hcut)
    have hlt : j.1 < i.1 := hfollows y hy i (by simp [hitems, hi]) j hj
    rw [Bound.liesBelow_anti (hxs i hi) (le_of_lt hlt)] at hbelow
    cases hbelow
  | false =>
    have hpos : 0 < zs.length := by
      have hlt : xs.length + ys.length < x.items.length := of_decide_eq_true hcut
      rw [hitems, List.length_append, List.length_append] at hlt
      omega
    obtain ⟨i, hi⟩ := List.exists_mem_of_length_pos hpos
    have hlt : i.1 < j.1 := hfollows y hy i (by simp [hitems, hi]) j hj
    rw [Bound.liesAbove_mono (hzs i hi) (le_of_lt hlt)] at habove
    cases habove

omit [LawfulStore σ] in
/-- The scan of leaves, each after the one before it, gives their items within the bounds. -/
theorem scanLeaves_run (hlower : lower.refusal? K = none) (hupper : upper.refusal? K = none) :
    ∀ {ls : List (LeafNode κ ν)}, ls.Pairwise (Follows descending) →
      (∀ x ∈ ls, (∃ r, g.FairLeaf r x) ∧ t.readLeaf x.number = .ok (g.leaf x.items)) →
      t.scanLeaves descending lower upper (ls.map LeafNode.number) =
        (ls.flatMap fun x => inOrder descending (x.items.filter (within lower upper))).map .ok
  | [], _, _ => rfl
  | x :: ls, hfollows, hread => by
    obtain ⟨⟨r, hfair⟩, hleaf⟩ := hread x (List.mem_cons_self ..)
    have hw : ∀ i ∈ x.items, Block.WritesItem K V i := fun i hi => (hfair.fits i hi).writes
    obtain ⟨xs, ys, zs, hitems, hcursor, hxs, hys, hzs⟩ :=
      Block.cursor_ofItems (P := V) (g.size 0) noBlock hw hfair.ascending hlower hupper descending
    obtain ⟨hx, hls⟩ := List.pairwise_cons.1 hfollows
    have hrest := scanLeaves_run hlower hupper hls fun y hy => hread y (List.mem_cons_of_mem _ hy)
    have hopen : t.openLeaf descending lower upper x.number = .ok (g.leaf x.items,
        .ofRange xs.length (xs.length + ys.length) x.items.length descending) := by
      change (g.leaf x.items).cursor lower upper descending = _ at hcursor
      simp only [Tree.openLeaf, hleaf, hcursor, bind, Except.bind, pure, Except.pure]
    have hfilter : x.items.filter (within lower upper) = ys := by
      rw [hitems, List.filter_append, List.filter_append, List.filter_eq_self.2 hys,
        List.filter_eq_nil_iff.2 fun i hi => by simp [within, hxs i hi],
        List.filter_eq_nil_iff.2 fun i hi => by simp [within, hzs i hi]]
      simp
    have hafter : (if (Cursor.ofRange xs.length (xs.length + ys.length) x.items.length
        descending).isCut then []
          else t.scanLeaves descending lower upper (ls.map LeafNode.number)) =
        (ls.flatMap fun x => inOrder descending (x.items.filter (within lower upper))).map .ok := by
      split
      · next hcut =>
        have hnil := filter_eq_nil_of_isCut hitems hxs hzs hx hcut
        rw [List.flatMap_eq_nil_iff.2 fun y hy => by rw [hnil y hy]; cases descending <;> rfl]
        rfl
      · exact hrest
    have hitem : List.Forall₂ (fun i entry => (g.leaf x.items).item i = .ok entry)
        (inOrder descending (List.range' xs.length ys.length)) (inOrder descending ys) := by
      refine forall₂_inOrder descending ?_
      rw [hitems] at hw ⊢
      exact Block.items_range' hw
    rw [List.map_cons, Tree.scanLeaves, hopen]
    dsimp only
    rw [hafter, Cursor.visitAll_ofRange, Tree.scanItems_eq hitem, List.flatMap_cons, hfilter,
      List.map_append]

/-! ### Where a scan begins -/

omit [V.Lawful] in
/-- The way to the first or the last leaf. -/
theorem endBelow_run (h : g.On t) (last : Bool) : ∀ {level : Nat} {x : Subtree κ ν level}
    {r : Span κ}, g.Fair level r x → g.mass level x ≤ g.room level →
    (∀ c ∈ g.cells level x, heap t c.1 = some c.2) →
    ∃ (bs : List (LeafNode κ ν)) (y : LeafNode κ ν) (ds : List (LeafNode κ ν)),
      t.endBelow last level x.number = .ok y.number ∧ x.leaves level = bs ++ y :: ds ∧
      (if last then ds else bs) = []
  | 0, x, r, _, _, _ => ⟨[], x, [], rfl, rfl, ite_self _⟩
  | level + 1, x, r, hx, hmass, hcells => by
    have hlen := FairNode.length hx
    have hlen' : x.children.length = x.keys.length + 1 := by rwa [List.length_map] at hlen
    have hread := readIndex_eq h (hcells _ (List.mem_cons_self ..)) hx.fits hlen hmass
    obtain ⟨i, hi⟩ : ∃ i, i = if last then x.keys.length else 0 := ⟨_, rfl⟩
    have hlt : i < x.children.length := by
      rw [hi]
      split <;> omega
    obtain ⟨c, hc⟩ : ∃ c, x.children[i]? = some c := ⟨_, List.getElem?_eq_getElem hlt⟩
    have hnumber : Index.child (g.node x.keys (x.children.map Subtree.number)) i = .ok c.number :=
      Index.child_ofParts hlen (fun a ha => (hx.fits a ha).writes) (by
        rw [List.getElem?_map, hc]
        rfl)
    have hcount : Block.length (g.node x.keys (x.children.map Subtree.number)) = x.keys.length :=
      Index.length_ofParts hlen
    obtain ⟨r', hsound⟩ := hx.chain.of_mem c (List.mem_of_getElem? hc)
    obtain ⟨bs, y, ds, hend, hleaves, hnil⟩ := endBelow_run h last hsound.fair hsound.tight.mass_le
      fun cell hcell => hcells cell (List.mem_cons_of_mem _
        (List.mem_flatMap.2 ⟨c, List.mem_of_getElem? hc, hcell⟩))
    refine ⟨(x.children.take i).flatMap (Subtree.leaves level) ++ bs, y,
      ds ++ (x.children.drop (i + 1)).flatMap (Subtree.leaves level), ?_, ?_, ?_⟩
    · simp only [Tree.endBelow, hread, bind, Except.bind, hcount, ← hi, hnumber, hend]
    · calc x.leaves (level + 1)
          = (x.children.take i ++ c :: x.children.drop (i + 1)).flatMap (Subtree.leaves level) :=
            congrArg (List.flatMap _) (eq_take_append_of_getElem? hc)
        _ = (x.children.take i).flatMap (Subtree.leaves level) ++ ((bs ++ y :: ds) ++
              (x.children.drop (i + 1)).flatMap (Subtree.leaves level)) := by
          rw [List.flatMap_append, List.flatMap_cons, hleaves]
        _ = _ := by simp
    · cases last with
      | true =>
        obtain rfl : i = x.keys.length := hi
        obtain rfl : ds = [] := hnil
        exact congrArg (List.flatMap _) (List.drop_eq_nil_of_le (by omega))
      | false =>
        obtain rfl : i = 0 := hi
        obtain rfl : bs = [] := hnil
        rfl

omit [V.Lawful] in
/-- A scan begins at a leaf beyond which the near bound keeps everything out. -/
theorem Rooted.startLeaf {x : Subtree κ ν level} (h : g.Rooted level x R t)
    (hnear : (if descending then upper else lower).refusal? K = none) :
    ∃ (bs : List (LeafNode κ ν)) (y : LeafNode κ ν) (ds : List (LeafNode κ ν)),
      t.startLeaf descending lower upper = .ok y.number ∧ x.leaves level = bs ++ y :: ds ∧
      (descending = true → ∀ i ∈ ds.flatMap LeafNode.items, upper.liesAbove i.1 = false) ∧
      (descending = false → ∀ i ∈ bs.flatMap LeafNode.items, lower.liesBelow i.1 = false) := by
  rw [Tree.startLeaf]
  cases hkey : (if descending then upper else lower).key? with
  | none =>
    obtain ⟨bs, y, ds, hend, hleaves, hnil⟩ := endBelow_run h.on descending h.sound.fair
      h.sound.mass_le fun _ hc => h.holds.get hc
    rw [← h.root_eq, ← h.indexLevels_eq] at hend
    refine ⟨bs, y, ds, hend, hleaves, ?_, ?_⟩
    · rintro rfl
      obtain rfl : ds = [] := hnil
      exact List.forall_mem_nil _
    · rintro rfl
      obtain rfl : bs = [] := hnil
      exact List.forall_mem_nil _
  | some k =>
    have hw : K.Writes k := Bound.refusal?_eq_none.1 hnear k hkey
    have hencode : K.encode k = .ok (K.bytes k) := hw
    obtain ⟨bs, y, ds, hleaf, hleaves, hbelow, habove⟩ := h.leafOf hw
    refine ⟨bs, y, ds, ?_, hleaves, ?_, ?_⟩
    · simp only [hencode, hleaf, bind, Except.bind]
    · rintro rfl i hi
      exact Bound.liesAbove_of_lt hkey (habove i hi)
    · rintro rfl i hi
      exact Bound.liesBelow_of_lt hkey (hbelow i hi)

/-! ### The whole scan -/

omit [K.Lawful] [V.Lawful] in
/-- A leaf's number is listed once. -/
theorem Rooted.findIdx? {x : Subtree κ ν level} (h : g.Rooted level x R t)
    {bs ds : List (LeafNode κ ν)} {y : LeafNode κ ν} (hleaves : x.leaves level = bs ++ y :: ds) :
    ((x.leaves level).map LeafNode.number).findIdx? (· = y.number) = some bs.length := by
  have hnodup := h.nodup_leaves
  rw [hleaves, List.map_append, List.map_cons] at hnodup ⊢
  have hfirst : ∀ n ∈ bs.map LeafNode.number, n ≠ y.number := fun n hn =>
    (List.nodup_append.1 hnodup).2.2 n hn _ (List.mem_cons_self ..)
  rw [List.findIdx?_append, List.findIdx?_eq_none_iff.2 fun n hn => decide_eq_false (hfirst n hn),
    List.findIdx?_cons, decide_eq_true rfl]
  simp

omit [V.Lawful] in
/-- If the near bound can be encoded, the scan goes through leaves that have all the items
within the bounds. -/
theorem Rooted.scan {x : Subtree κ ν level} (h : g.Rooted level x R t)
    (hnear : (if descending then upper else lower).refusal? K = none) :
    ∃ ls, ls ≠ [] ∧ ls.Sublist (x.leaves level) ∧
      ls.flatMap (fun y => y.items.filter (within lower upper)) =
        (x.items level).filter (within lower upper) ∧
      t.scan descending lower upper =
        .ok (t.scanLeaves descending lower upper ((inOrder descending ls).map LeafNode.number)) := by
  obtain ⟨bs, y, ds, hstart, hleaves, habove, hbelow⟩ := h.startLeaf hnear
  have hitems : (x.items level).filter (within lower upper) =
      bs.flatMap (fun y => y.items.filter (within lower upper)) ++
        (y.items.filter (within lower upper) ++
          ds.flatMap fun y => y.items.filter (within lower upper)) := by
    rw [← Subtree.flatMap_leaves, hleaves, List.filter_flatMap, List.flatMap_append,
      List.flatMap_cons]
  have hnone : ∀ ls : List (LeafNode κ ν),
      (∀ i ∈ ls.flatMap LeafNode.items, within lower upper i = false) →
      ls.flatMap (fun y => y.items.filter (within lower upper)) = [] := by
    intro ls hls
    rw [← List.filter_flatMap, List.filter_eq_nil_iff]
    exact fun i hi => by simp [hls i hi]
  have hscan : t.scan descending lower upper = .ok (t.scanLeaves descending lower upper
      (if descending then (((x.leaves level).map LeafNode.number).take (bs.length + 1)).reverse
        else ((x.leaves level).map LeafNode.number).drop bs.length)) := by
    simp only [Tree.scan, h.leaves, hstart, bind, Except.bind, h.findIdx? hleaves, pure,
      Except.pure]
  rw [hscan, hitems, hleaves]
  cases descending with
  | true =>
    refine ⟨bs ++ [y], by simp, by simp, ?_, ?_⟩
    · rw [hnone ds fun i hi => by simp [within, habove rfl i hi]]
      simp
    · rw [← List.map_take, List.take_length_add_append]
      simp [inOrder]
  | false =>
    refine ⟨y :: ds, by simp, List.sublist_append_right .., ?_, ?_⟩
    · rw [hnone bs fun i hi => by simp [within, hbelow rfl i hi]]
      simp
    · rw [← List.map_drop, List.drop_left]
      rfl

/-- A scan gives the items within the bounds in its order. -/
theorem scan_run (h : g.Holding items R t) (hlower : lower.refusal? K = none)
    (hupper : upper.refusal? K = none) (descending : Bool) :
    t.scan descending lower upper =
      .ok ((inOrder descending (items.filter (within lower upper))).map .ok) := by
  obtain ⟨level, x, hrooted, rfl⟩ := h
  have hnear : (if descending then upper else lower).refusal? K = none := by
    split <;> assumption
  obtain ⟨ls, -, hsub, hitems, hscan⟩ := hrooted.scan hnear
  have hascending := hrooted.sound.fair.ascending
  rw [← Subtree.flatMap_leaves, Ascending, List.pairwise_flatMap] at hascending
  have hls := hascending.2.sublist hsub
  have hfollows : (inOrder descending ls).Pairwise (Follows descending) := by
    cases descending with
    | true => exact List.pairwise_reverse.2 (hls.imp fun h i hi j hj => h j hj i hi)
    | false => exact hls
  have hread : ∀ y ∈ inOrder descending ls, (∃ r, g.FairLeaf r y) ∧
      t.readLeaf y.number = .ok (g.leaf y.items) :=
    fun y hy => hrooted.leaf (hsub.subset (mem_inOrder.1 hy))
  rw [hscan, scanLeaves_run hlower hupper hfollows hread, flatMap_inOrder, hitems]

theorem iter_run (h : g.Holding items R t) : t.iter = .ok (items.map .ok) := by
  have hall : items.filter (within .unbounded .unbounded) = items :=
    List.filter_eq_self.2 fun _ _ => rfl
  have hscan : t.iter = .ok ((items.filter (within .unbounded .unbounded)).map .ok) :=
    scan_run h rfl rfl false
  rw [hscan, hall]

omit [V.Lawful] in
/-- A scan whose near bound cannot be encoded is refused. -/
theorem scan_refused {e : Error} (h : g.Holding items R t)
    (hnear : (if descending then upper else lower).refusal? K = some e) :
    t.scan descending lower upper = .error e := by
  obtain ⟨level, x, hrooted, rfl⟩ := h
  obtain ⟨k, hkey, hencode⟩ := Bound.refusal?_eq_some.1 hnear
  have hstart : t.startLeaf descending lower upper = .error e := by
    simp only [Tree.startLeaf, hkey, hencode, bind, Except.bind]
  simp only [Tree.scan, hrooted.leaves, hstart, bind, Except.bind]

/-- A scan whose far bound cannot be encoded gives the error and ends. -/
theorem scan_stops {e : Error} (h : g.Holding items R t)
    (hnear : (if descending then upper else lower).refusal? K = none)
    (hfar : (if descending then lower else upper).refusal? K = some e) :
    t.scan descending lower upper = .ok [.error e] := by
  obtain ⟨level, x, hrooted, rfl⟩ := h
  obtain ⟨ls, hne, hsub, -, hscan⟩ := hrooted.scan hnear
  obtain ⟨y, rest, hfirst⟩ : ∃ y rest, inOrder descending ls = y :: rest :=
    List.exists_cons_of_ne_nil (mt inOrder_eq_nil.1 hne)
  have hy : y ∈ x.leaves level :=
    hsub.subset (mem_inOrder.1 (hfirst ▸ List.mem_cons_self ..))
  obtain ⟨⟨r, hfair⟩, hread⟩ := hrooted.leaf hy
  have hrefused : (lower.refusal? K).or (upper.refusal? K) = some e := by
    cases descending with
    | true => exact Option.or_eq_some_iff.2 (.inl hfar)
    | false => exact Option.or_eq_some_iff.2 (.inr ⟨hnear, hfar⟩)
  have hcursor : (g.leaf y.items).cursor lower upper descending = .error e :=
    Block.cursor_refused _ _ (fun i hi => (hfair.fits i hi).writes) hfair.ascending hrefused
      descending
  have hopen : t.openLeaf descending lower upper y.number = .error e := by
    simp only [Tree.openLeaf, hread, hcursor, bind, Except.bind]
  rw [hscan, hfirst, List.map_cons, Tree.scanLeaves, hopen]

/-- What a scan gives depends on the items alone. -/
theorem scan_eq (h : g.Holding items R t) (descending : Bool) (lower upper : Bound κ) :
    t.scan descending lower upper =
      match (if descending then upper else lower).refusal? K,
        (if descending then lower else upper).refusal? K with
      | some e, _ => .error e
      | none, some e => .ok [.error e]
      | none, none => .ok ((inOrder descending (items.filter (within lower upper))).map .ok) := by
  split
  · next e hnear => exact scan_refused h hnear
  · next e hnear hfar => exact scan_stops h hnear hfar
  · next hnear hfar =>
    cases descending with
    | true => exact scan_run h hfar hnear true
    | false => exact scan_run h hnear hfar false

end Regime

/-! ### After a session -/

namespace Tree

variable {κ ν : Type} [LinearOrder κ] {K : OrderedCodec κ} {V : Codec ν} [K.Lawful] [V.Lawful]

/-- After a session in a store that other things may have used, a scan gives the entries of
the map within the bounds, in ascending or descending order. A bound whose key cannot be
encoded is refused: the near one at once, the far one at the first leaf. -/
theorem session_scans {s : Device} {calls : List (Call κ ν)} {answers : List (Option ν)}
    {t : Tree Device K V} (hs : s.Used) (hblank : IsBlank s)
    (hrun : session K V s calls = .ok (answers, t)) :
    ∃ m, calls.mapM Call.onMap (∅ : Map κ ν) = (answers, m) ∧
      t.iter = .ok (m.toList.map .ok) ∧
      (∀ lower upper, lower.refusal? K = none → upper.refusal? K = none →
        t.range lower upper = .ok ((m.toList.filter (within lower upper)).map .ok)) ∧
      ∀ descending lower upper,
        t.scan descending lower upper =
          match (if descending then upper else lower).refusal? K,
            (if descending then lower else upper).refusal? K with
          | some e, _ => .error e
          | none, some e => .ok [.error e]
          | none, none => .ok ((inOrder descending (m.toList.filter (within lower upper))).map .ok) := by
  obtain ⟨t₀, s', hopen, hcalls⟩ := session_ok hrun
  have h₀ : (Regime.ofShape K V s.shape).Stores (∅ : Map κ ν).toList (LawfulStore.heap s) t₀ :=
    Regime.ofStore_stores hs.valid hblank hopen
  obtain ⟨m, hmap, hstores⟩ := (Regime.mapM_call_ends rfl h₀).of_ok hcalls
  exact ⟨m, hmap, Regime.iter_run hstores.holding,
    fun lower upper hlower hupper => Regime.scan_run hstores.holding hlower hupper false,
    Regime.scan_eq hstores.holding⟩

/-- Scans in both orders, and one whose bounds are the wrong way round. -/
theorem session_scans_small : ∃ t : Tree Device word32 word32.toCodec,
    session word32 word32.toCodec Device.small Device.smallCalls =
      .ok ([none, none, none, none, some 30, some 20, none], t) ∧
    t.iter = .ok [.ok (1, 10), .ok (3, 30), .ok (4, 40)] ∧
    t.scan true (.excluded 1) (.included 4) = .ok [.ok (4, 40), .ok (3, 30)] ∧
    t.scan true (.included 4) (.excluded 1) = .ok [] := by
  obtain ⟨⟨answers, t⟩, hrun, rfl⟩ := exists_ok_of_toOption (f := Prod.fst)
    (x := session word32 word32.toCodec Device.small Device.smallCalls)
    (b := [none, none, none, none, some 30, some 20, none]) (by decide +kernel)
  obtain ⟨m, hmap, hiter, -, hscan⟩ := session_scans (K := KeyKind.word32.codec)
    (V := (ValueKind.key .word32).codec) (.fresh Device.small_fresh) ⟨_, rfl, rfl⟩ hrun
  have hfound : (Device.smallCalls.mapM Call.onMap (∅ : Map UInt32 UInt32)).2.toList =
      [(1, 10), (3, 30), (4, 40)] := by decide +kernel
  have hitems : m.toList = ([(1, 10), (3, 30), (4, 40)] : List (UInt32 × UInt32)) :=
    (congrArg (fun r => r.2.toList) hmap).symm.trans hfound
  rw [hitems] at hiter
  have hdown := hscan true (.excluded (1 : UInt32)) (.included (4 : UInt32))
  have hwrong := hscan true (.included (4 : UInt32)) (.excluded (1 : UInt32))
  rw [hitems] at hdown hwrong
  exact ⟨t, hrun, hiter, hdown, hwrong⟩

end Tree

end PagedMap
