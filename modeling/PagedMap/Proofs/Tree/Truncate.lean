/-
# Saving and starting again

Saving writes the descriptor into the reserve and leaves the blocks alone. When all
blocks of a tree have been freed only the rest is left, and an empty leaf starts the
tree again.

Key theorems: `Regime.save_ends`, `Regime.freeBlocks_run`, `Regime.truncate_ends`.
-/
import PagedMap.Proofs.Tree.Blocks

namespace PagedMap

theorem Descriptor.length_of_encode {d : Descriptor} {bs : Bytes} (h : d.encode = .ok bs) :
    bs.length = descriptorSize := by
  rw [Descriptor.encode] at h
  split at h
  · cases h
  · split at h
    · cases h
    · obtain rfl := Except.ok.inj h
      simp [Descriptor.fields, descriptorSize, Bytes.ofInt32]

/-- A descriptor with a root of a store is written unless it tells of too many items. -/
theorem Descriptor.encode_error {d : Descriptor} {e : Error} (hroot : d.root.toNat ≤ maxInt32)
    (h : d.encode = .error e) :
    e = .invalidState (.treeTooLarge d.length) ∧ maxInt32 < d.length := by
  rw [encode, if_neg (Nat.not_lt.2 hroot)] at h
  split at h
  · next hlarge => exact ⟨(Except.error.inj h).symm, hlarge⟩
  · cases h

theorem Descriptor.length_of_size {d : Descriptor} {n : Nat} (h : d.size = n) : d.length = n := by
  rw [length, h]
  simp

theorem Descriptor.exists_encode_empty {n : BlockNumber} (h : n.toNat ≤ maxInt32) :
    ∃ bs, (Descriptor.empty n).encode = .ok bs := by
  cases hencode : (Descriptor.empty n).encode with
  | ok bs => exact ⟨bs, rfl⟩
  | error e => exact absurd (Descriptor.encode_error h hencode).2 (Nat.not_lt_zero _)

namespace Regime

variable {σ κ ν : Type} [Store σ] [LawfulStore σ] {K : OrderedCodec κ} {V : Codec ν}
  {g : Regime K V} {level : Nat} {R : Heap} {t t' : Tree σ K V}

/-- Saving fails only if the descriptor cannot be written, and changes no block. -/
theorem save_ends (h : g.On t) :
    Ends (Tree.save : Action (Tree σ K V) Unit) t
      (fun e t' => t' = t ∧ t.descriptor.encode = .error e) fun _ t' =>
        g.On t' ∧ t'.descriptor = t.descriptor ∧ heap t' = heap t := by
  rw [Tree.save]
  refine ends_bind_get ?_
  cases hencode : t.descriptor.encode with
  | error e => exact ⟨rfl, rfl⟩
  | ok bs =>
    have hlen : bs.length ≤ (LawfulStore.shape t.store).reserveSize := by
      rw [Descriptor.length_of_encode hencode, h.shape]
      exact h.shape_valid.descriptorSize_le
    obtain ⟨s, hrun, hvalid, hshape, hheap, -⟩ := LawfulStore.setReserve_ends h.valid hlen
    have hset : Tree.onStore (Store.setReserve bs) t =
        (.ok (), (⟨s, t.descriptor, t.unsaved⟩ : Tree σ K V)) := by
      simp only [Tree.onStore, hrun]
    have hsync : Tree.onStore Store.sync (⟨s, t.descriptor, t.unsaved⟩ : Tree σ K V) =
        (.ok (), ⟨s, t.descriptor, t.unsaved⟩) := by
      simp only [Tree.onStore, LawfulStore.sync_eq]
    exact ends_bind_lift rfl (ends_bind_of_ok hset (ends_bind_of_ok hsync (ends_modify
      ⟨⟨hvalid, hshape.trans h.shape⟩, rfl, hheap⟩)))

/-- Blocks of the tree are freed one after the other. -/
theorem freeBlocks_run (level : Nat) : ∀ {numbers : List BlockNumber} {cells others : List Cell}
    {t : Tree σ K V}, g.On t → cells.map Prod.fst = numbers.map (g.spot level) →
    (heap t).Holds (cells ++ others) R →
    ∃ t', numbers.forM (Tree.free (kind level)) t = (.ok (), t') ∧ g.Stays t t' ∧
      (heap t').Holds others R
  | [], [], others, t, h, _, hH => ⟨t, rfl, Stays.refl h, hH⟩
  | n :: numbers, (q, b) :: cells, others, t, h, hspots, hH => by
    obtain ⟨hq, hrest⟩ := List.cons.inj hspots
    obtain rfl : q = g.spot level n := hq
    obtain ⟨t₁, hfree, hstays, hH₁⟩ := free_run h hH
    obtain ⟨t₂, hrun, hstays', hH₂⟩ := freeBlocks_run level hstays.on hrest hH₁
    refine ⟨t₂, ?_, hstays.trans hstays', hH₂⟩
    change (Tree.free (kind level) n >>= fun _ => numbers.forM (Tree.free (kind level))) t = _
    rw [bind_eq, hfree]
    exact hrun
  | [], _ :: _, _, _, _, hspots, _ => by simp at hspots
  | _ :: _, [], _, _, _, hspots, _ => by simp at hspots

theorem emptyLeaf_eq (h : g.On t) : t.emptyLeaf = g.leaf [] := by
  rw [Tree.emptyLeaf, h.blockSize_eq]
  rfl

variable [LinearOrder κ]

/-- A tree that is a single empty leaf has no items. -/
theorem holding_empty {n : BlockNumber} (h : g.On t) (hroot : t.descriptor = .empty n)
    (hH : (heap t).Holds [g.cell 0 ⟨n, []⟩] R) : g.Holding [] R t := by
  refine ⟨0, ⟨n, []⟩, ⟨h, by rw [hroot]; rfl, by rw [hroot]; rfl, ⟨?_, Nat.zero_le _,
    fun h0 => (h0 rfl).elim⟩, hH⟩, rfl⟩
  exact ⟨(fun _ hi => nomatch hi), List.Pairwise.nil, (fun _ hi => nomatch hi)⟩

variable [K.Lawful]

/-- All blocks of a tree are freed. -/
theorem freeTree_run {items : List (κ × ν)} (h : g.Holding items R t) :
    ∃ indexes leaves t₁ t₂, t.blocks = .ok (indexes, leaves) ∧
      indexes.forM (Tree.free .index) t = (.ok (), t₁) ∧
      leaves.forM (Tree.free .leaf) t₁ = (.ok (), t₂) ∧ g.Stays t t₂ ∧ heap t₂ = R := by
  have hon := h.on
  obtain ⟨⟨indexes, leaves⟩, hblocks, cells, hspots, hH⟩ := blocks_run h
  obtain ⟨upper, lower, rfl, hupper, hlower⟩ := List.map_eq_append_iff.1 hspots
  obtain ⟨t₁, hfree, hstays, hH₁⟩ := freeBlocks_run 1 hon hupper hH
  obtain ⟨t₂, hfree', hstays', hH₂⟩ := freeBlocks_run 0 hstays.on hlower
    ((List.append_nil lower).symm ▸ hH₁)
  exact ⟨indexes, leaves, t₁, t₂, hblocks, hfree, hfree', hstays.trans hstays', hH₂⟩

/-- Truncating, if it succeeds, leaves an empty tree beside the rest. -/
theorem truncate_ends {items : List (κ × ν)} (h : g.Holding items R t) :
    Ends (Tree.truncate : Action (Tree σ K V) Unit) t (fun e _ => IsOutOfSpace e) fun _ t' =>
      g.Holding [] R t' ∧ t'.descriptor.size = 0 := by
  have hon : g.On t := h.on
  obtain ⟨indexes, leaves, t₁, t₂, hblocks, hfree, hfree', hstays, hH⟩ := freeTree_run h
  rw [Tree.truncate]
  refine ends_bind_get (ends_bind_lift hblocks (ends_bind_of_ok hfree (ends_bind_of_ok hfree' ?_)))
  rw [emptyLeaf_eq hon]
  refine Ends.bind ((addLeaf_ends hstays.on (Nat.zero_le _) (Heap.holds_nil.2 hH)).imp_error
    (fun _ _ he => he.1.isOutOfSpace)) ?_
  rintro n t₃ ⟨hn, hstays', hH₃⟩
  obtain ⟨t₄, hset, hon', hdescriptor, hstore⟩ := setDescriptor_run hstays'.on (.empty n)
  refine ends_bind_of_ok hset ((save_ends hon').mono ?_ ?_)
  · rintro e _ ⟨-, he⟩
    rw [hdescriptor] at he
    have hroot := Nat.le_trans (Nat.le_of_lt hn) (hon.shape_valid.maxBlocks_le .leaf)
    obtain ⟨bs, hbs⟩ := Descriptor.exists_encode_empty hroot
    cases hbs.symm.trans he
  rintro - t₅ ⟨hon'', hdescriptor', hheap⟩
  refine ⟨holding_empty hon'' (hdescriptor'.trans hdescriptor) ?_, ?_⟩
  · rw [hheap, heap, hstore]
    exact hH₃
  · rw [hdescriptor', hdescriptor]
    rfl

end Regime

end PagedMap
