/-
# What loading writes

While a tree is being filled, the blocks that were noted as written are all that the store
holds beyond what it held before, wherever the filling stops (`Loading.addAll_accounted`).
So if these are freed, the store holds what it held before (`Tree.freeAll_extended`).

Key definitions: `Device.Extended`, `Loading.Accounted`.
Key theorems: `Loading.addSeparator_accounted`, `Loading.addAll_accounted`,
`Tree.freeAll_extended`.
-/
import PagedMap.Proofs.Store.Exact
import PagedMap.Proofs.Tree.Spine

namespace PagedMap

/-- Where a block of a kind is. -/
def Shape.spot (g : Shape) (p : Pool × BlockNumber) : Spot := (g.home p.1, p.2)

namespace Device

variable {s s' : Device} {blocks : List (Pool × BlockNumber)} {kind : Pool} {n : BlockNumber}

/-- The second store is exact, and it holds what the first one holds and these blocks. -/
structure Extended (s : Device) (blocks : List (Pool × BlockNumber)) (s' : Device) : Prop where
  exact : s'.Exact
  shape_eq : s'.shape = s.shape
  holds : ∃ cells, cells.map Prod.fst = blocks.map s.shape.spot ∧ s'.heap.Holds cells s.heap

theorem extended_nil :
    s.Extended [] s' ↔ s'.Exact ∧ s'.shape = s.shape ∧ s'.heap = s.heap := by
  constructor
  · rintro ⟨hexact, hshape, cells, hspots, hholds⟩
    obtain rfl := List.map_eq_nil_iff.1 hspots
    exact ⟨hexact, hshape, Heap.holds_nil.1 hholds⟩
  · rintro ⟨hexact, hshape, hheap⟩
    exact ⟨hexact, hshape, [], rfl, Heap.holds_nil.2 hheap⟩

/-- A block that is allocated is one more. -/
theorem Extended.allocate_ends (h : s.Extended blocks s') (kind : Pool) (data : Bytes) :
    Ends (Store.allocate kind data) s' (fun _ s'' => s.Extended blocks s'')
      fun n s'' => s.Extended ((kind, n) :: blocks) s'' := by
  obtain ⟨cells, hspots, hholds⟩ := h.holds
  refine ((Device.allocate_ends h.exact.valid kind data).and
    (Faithful.allocate_ends h.exact kind data)).mono ?_ ?_
  · rintro e _ ⟨⟨rfl, -⟩, -⟩
    exact h
  · rintro n s'' ⟨⟨-, hfree, hchanged⟩, hfaithful, -⟩
    rw [h.shape_eq] at hfree
    refine ⟨⟨hchanged.valid, hfaithful⟩, hchanged.shape_eq.trans h.shape_eq,
      (s.shape.spot (kind, n), data.fit (s.shape.blockSize kind)) :: cells,
      congrArg (s.shape.spot (kind, n) :: ·) hspots, ?_⟩
    rw [hchanged.heap_eq, h.shape_eq]
    exact hholds.allocate hfree _

/-- Writing one of the blocks adds none. -/
theorem Extended.write_ends (h : s.Extended blocks s') (hmem : (kind, n) ∈ blocks)
    (data : Bytes) :
    Ends (Store.write kind n data) s' (fun _ s'' => s.Extended blocks s'')
      fun _ s'' => s.Extended blocks s'' := by
  obtain ⟨cells, hspots, hholds⟩ := h.holds
  refine ((Device.write_ends h.exact.valid kind n data).and
    (Faithful.write_ends h.exact kind n data)).mono ?_ ?_
  · rintro e _ ⟨⟨rfl, -⟩, -⟩
    exact h
  · rintro - s'' ⟨hchanged, hfaithful, -⟩
    have hspot : s.shape.spot (kind, n) ∈ cells.map Prod.fst := by
      rw [hspots]
      exact List.mem_map_of_mem hmem
    obtain ⟨cells', hsame, hholds'⟩ := hholds.write_mem hspot
      (data.fit (s'.shape.blockSize kind))
    refine ⟨⟨hchanged.valid, hfaithful⟩, hchanged.shape_eq.trans h.shape_eq, cells',
      hsame.trans hspots, ?_⟩
    rw [hchanged.heap_eq, h.shape_eq]
    rw [h.shape_eq] at hholds'
    exact hholds'

/-- One of the blocks is freed. -/
theorem Extended.free_ends (h : s.Extended ((kind, n) :: blocks) s') :
    Ends (Store.free kind n) s' (fun _ _ => False) fun _ s'' => s.Extended blocks s'' := by
  obtain ⟨_ | ⟨⟨q, b⟩, cells⟩, hspots, hholds⟩ := h.holds
  · cases hspots
  obtain ⟨hq, hrest⟩ := List.cons.inj hspots
  obtain rfl : q = s.shape.spot (kind, n) := hq
  refine ((Device.free_ends h.exact.valid kind n).and
    (Faithful.free_ends h.exact kind n)).mono ?_ ?_
  · rintro e _ ⟨⟨-, hnone⟩, -⟩
    rw [h.shape_eq] at hnone
    cases hholds.1.symm.trans hnone
  · rintro - s'' ⟨hchanged, hfaithful, -⟩
    refine ⟨⟨hchanged.valid, hfaithful⟩, hchanged.shape_eq.trans h.shape_eq, cells, hrest, ?_⟩
    rw [hchanged.heap_eq, h.shape_eq]
    exact hholds.2

end Device

variable {κ ν : Type} {K : OrderedCodec κ} {V : Codec ν} {s : Device}

/-! ### Filling -/

namespace Loading

variable {l : Loading Device K V} {q : Pool × BlockNumber}

/-- The blocks that were written are those that the store holds beyond what it held before,
and the leaf written last is one of them. -/
structure Accounted (s : Device) (l : Loading Device K V) : Prop where
  extended : s.Extended l.written l.tree.store
  previous_mem : ∀ p ∈ l.previous?, (.leaf, p.1) ∈ l.written

theorem allocate_accounted (h : l.Accounted s) (kind : Pool) (data : Bytes) :
    Ends (allocate kind data) l (fun _ l' => l'.Accounted s) fun n l' =>
      l'.Accounted s ∧ l'.written = (kind, n) :: l.written := by
  have hends : Ends (Tree.onStore (Store.allocate kind data)) l.tree
      (fun _ t => s.Extended l.written t.store)
      fun n t => s.Extended ((kind, n) :: l.written) t.store :=
    Tree.ends_onStore (h.extended.allocate_ends kind data)
  refine (Regime.ends_onTree_set (E := fun _ l' => Accounted s l')
    (Q := fun n l' => s.Extended ((kind, n) :: l'.written) l'.tree.store ∧
      l'.written = l.written ∧ l'.previous? = l.previous?) ?_).bind ?_
  · exact hends.mono (fun _ _ he => ⟨he, h.previous_mem⟩) fun _ _ hn => ⟨hn, rfl, rfl⟩
  · rintro n l₁ ⟨hextended, hwritten, hprevious⟩
    have hmem : ∀ p ∈ l₁.previous?, (.leaf, p.1) ∈ (kind, n) :: l₁.written := by
      rw [hprevious, hwritten]
      exact fun p hp => List.mem_cons_of_mem _ (h.previous_mem p hp)
    exact ends_bind_of_ok rfl (ends_pure ⟨⟨hextended, hmem⟩, congrArg _ hwritten⟩)

/-- Blocks that go up are noted, and those that were noted stay. -/
theorem addSeparator_accounted (capacity : Nat) : ∀ (levels : List (Index K)) (key : Bytes)
    (left : BlockNumber) {l : Loading Device K V}, l.Accounted s → q ∈ l.written →
    Ends (addSeparator capacity key left levels) l (fun _ l' => l'.Accounted s) fun _ l' =>
      l'.Accounted s ∧ q ∈ l'.written
  | [], key, left, l, h, hq =>
    ends_bind_compute (fun _ => h) fun _ => ends_pure ⟨h, hq⟩
  | node :: above, key, left, l, h, hq => by
    rw [addSeparator]
    split
    · exact ends_bind_compute (fun _ => h) fun _ => ends_pure ⟨h, hq⟩
    · refine ends_bind_compute (fun _ => h) fun upKey => ends_bind_compute (fun _ => h)
        fun upChild => ends_bind_compute (fun _ => h) fun full => ?_
      refine (allocate_accounted h _ _).bind ?_
      rintro n l₁ ⟨h₁, hwritten⟩
      refine ends_bind_compute (fun _ => h₁) fun fresh => ?_
      refine (addSeparator_accounted capacity above upKey n h₁ ?_).bind fun _ _ h₂ => ends_pure h₂
      rw [hwritten]
      exact List.mem_cons_of_mem _ hq

theorem closeLeaf_accounted (h : l.Accounted s) (nextKey : Bytes) :
    Ends (closeLeaf nextKey) l (fun _ l' => l'.Accounted s) fun _ l' => l'.Accounted s := by
  rw [closeLeaf]
  refine ends_bind_get (ends_bind_set ?_)
  have h₀ : Accounted s { l with leaf := l.leaf.cleared } := ⟨h.extended, h.previous_mem⟩
  refine ends_bind_compute (fun _ => h₀) fun low => ends_bind_compute (fun _ => h₀) fun key => ?_
  refine (allocate_accounted h₀ _ _).bind ?_
  rintro n l₁ ⟨h₁, hwritten⟩
  refine (addSeparator_accounted _ _ key n h₁ (hwritten ▸ List.mem_cons_self ..)).bind ?_
  rintro levels l₂ ⟨h₂, hn⟩
  refine ends_modify ⟨h₂.extended, ?_⟩
  rintro p ⟨⟩
  exact hn

theorem checkAscending_accounted (h : l.Accounted s) (key : Bytes) :
    Ends (checkAscending key) l (fun _ l' => l'.Accounted s) fun _ l' => l'.Accounted s := by
  rw [checkAscending]
  refine ends_bind_get ?_
  split
  · exact ends_pure h
  · refine ends_bind_compute (fun _ => h) fun order => ?_
    cases order with
    | lt => exact ends_pure h
    | eq => exact ends_throw h
    | gt => exact ends_throw h

theorem add_accounted (h : l.Accounted s) (entry : κ × ν) :
    Ends (add entry) l (fun _ l' => l'.Accounted s) fun _ l' => l'.Accounted s := by
  have hput (key bytes : Bytes) {l : Loading Device K V} (h : l.Accounted s) :
      Ends (do
        let l ← get
        let leaf ← l.leaf.append bytes
        set { l with leaf, count := l.count + 1, lastKey? := some key } :
          Action (Loading Device K V) PUnit) l (fun _ l' => l'.Accounted s)
        fun _ l' => l'.Accounted s :=
    ends_bind_get (ends_bind_compute (fun _ => h) fun leaf =>
      ends_of_ok (set_eq _ _) ⟨h.extended, h.previous_mem⟩)
  rw [add]
  refine ends_bind_get (ends_bind_compute (fun _ => h) ?_)
  rintro ⟨key, bytes⟩
  refine (checkAscending_accounted h key).bind fun _ l₁ h₁ => ?_
  split
  · exact (closeLeaf_accounted h₁ key).bind fun _ l₂ h₂ => hput key bytes h₂
  · exact hput key bytes h₁

/-- The leaf that is evened out is one of those that were written. -/
theorem evenOutLast_accounted (h : l.Accounted s) :
    Ends (evenOutLast : Action (Loading Device K V) Unit) l (fun _ l' => l'.Accounted s)
      fun _ l' => l'.Accounted s := by
  rw [evenOutLast]
  refine ends_bind_get ?_
  split
  · next n previous lowest above hprevious hlevels =>
    split
    · dsimp only
      split
      · refine ends_bind_compute (fun _ => h) fun key => ends_bind_compute (fun _ => h)
          fun lowest => ?_
        split
        · have hmem : (.leaf, n) ∈ l.written := h.previous_mem _ hprevious
          refine (Regime.ends_onTree_set (E := fun _ l' => Accounted s l')
            (Q := fun _ l' => Accounted s l') ?_).bind ?_
          · refine (Tree.ends_onStore (h.extended.write_ends hmem _)).mono ?_ ?_
            · exact fun _ _ he => ⟨he, h.previous_mem⟩
            · exact fun _ _ hq => ⟨hq, h.previous_mem⟩
          · exact fun _ l₁ h₁ => ends_modify ⟨h₁.extended, h₁.previous_mem⟩
        · exact ends_pure h
      · exact ends_pure h
    · exact ends_pure h
  · exact ends_pure h

theorem writeLevels_accounted : ∀ (levels : List (Index K)) (child : BlockNumber)
    {l : Loading Device K V}, l.Accounted s →
    Ends (writeLevels child levels) l (fun _ l' => l'.Accounted s) fun _ l' => l'.Accounted s
  | [], _, _, h => ends_pure h
  | _ :: above, _, _, h =>
    (allocate_accounted h _ _).bind fun n _ h₁ => writeLevels_accounted above n h₁.1

theorem finish_accounted (h : l.Accounted s) :
    Ends (finish : Action (Loading Device K V) Unit) l (fun _ l' => l'.Accounted s)
      fun _ l' => l'.Accounted s := by
  rw [finish]
  refine (evenOutLast_accounted h).bind fun _ l₁ h₁ => ends_bind_get ?_
  refine (allocate_accounted h₁ _ _).bind fun n l₂ h₂ => ?_
  refine (writeLevels_accounted _ n h₂.1).bind fun root l₃ h₃ => ?_
  exact ends_modify ⟨h₃.extended, h₃.previous_mem⟩

theorem forM_add_accounted : ∀ (entries : List (κ × ν)) {l : Loading Device K V},
    l.Accounted s → Ends (entries.forM add) l (fun _ l' => l'.Accounted s)
      fun _ l' => l'.Accounted s
  | [], _, h => ends_pure h
  | entry :: entries, _, h =>
    (add_accounted h entry).bind fun _ _ h₁ => forM_add_accounted entries h₁

/-- Wherever the filling stops, what was written is noted. -/
theorem addAll_accounted (h : l.Accounted s) (entries : List (κ × ν)) :
    Ends (addAll entries) l (fun _ l' => l'.Accounted s) fun _ l' => l'.Accounted s :=
  (forM_add_accounted entries h).bind fun _ _ h₁ => finish_accounted h₁

end Loading

/-! ### Freeing what was written -/

namespace Tree

/-- When all blocks are freed that a store holds beyond another, it holds what that holds. -/
theorem freeAll_extended : ∀ {blocks : List (Pool × BlockNumber)} {t : Tree Device K V},
    s.Extended blocks t.store →
    ∃ t', freeAll blocks t = (.ok (), t') ∧ s.Extended [] t'.store
  | [], t, h => ⟨t, rfl, h⟩
  | (kind, n) :: blocks, t, h => by
    obtain ⟨⟨⟩, s₁, hfree, hs₁⟩ := h.free_ends.exists_ok
    obtain ⟨t', hrest, h'⟩ := freeAll_extended (t := { t with store := s₁ }) hs₁
    refine ⟨t', ?_, h'⟩
    have hrun : free kind n t = (.ok (), { t with store := s₁ }) := by
      rw [free, onStore, hfree]
    rw [freeAll, bind_eq, tryCatch_eq, hrun]
    exact hrest

end Tree

end PagedMap
