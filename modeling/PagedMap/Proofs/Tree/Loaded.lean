/-
# Loading a tree

Loading frees the blocks of an empty tree and fills it. If it succeeds the tree holds
the entries in the order in which they were given, beside the rest.

Key theorem: `Regime.load_ends`.
-/
import PagedMap.Proofs.Tree.Filling
import PagedMap.Proofs.Tree.Truncate

namespace PagedMap.Regime

variable {σ κ ν : Type} [Store σ] [LawfulStore σ] [LinearOrder κ] {K : OrderedCodec κ}
  {V : Codec ν} [K.Lawful] {g : Regime K V} {R : Heap} {t : Tree σ K V}

omit [K.Lawful] in
/-- Where loading starts. -/
theorem seen_nil (h : g.On t) (hH : heap t = R) :
    g.Seen [] R (⟨t, [], [], none, t.emptyLeaf, 0, none⟩ : Loading σ K V) := by
  refine ⟨(fun _ hi => nomatch hi), List.Pairwise.nil, rfl, rfl, none, [], [],
    ⟨h, emptyLeaf_eq h, fun n => ⟨(fun _ hi => nomatch hi), List.Pairwise.nil,
      (fun _ hi => nomatch hi)⟩, Nat.zero_le _, [], .nil, hH⟩, (fun _ hp => nomatch hp), rfl,
    fun hne => (hne rfl).elim⟩

omit [LinearOrder κ] [K.Lawful] in
/-- Freeing as far as possible does not fail. -/
theorem freeAll_run : ∀ {blocks : List (Pool × BlockNumber)} {t : Tree σ K V}, g.On t →
    ∃ t', Tree.freeAll blocks t = (.ok (), t') ∧ g.On t'
  | [], t, h => ⟨t, rfl, h⟩
  | (kind, n) :: blocks, t, h => by
    have hon := free_on h kind n
    obtain ⟨t', hrest, hon'⟩ := freeAll_run hon
    refine ⟨t', ?_, hon'⟩
    rw [Tree.freeAll, bind_eq, tryCatch_eq]
    cases hfree : (Tree.free kind n : Action (Tree σ K V) Unit) t with
    | mk r t₁ =>
      rw [hfree] at hrest
      cases r <;> exact hrest

omit [K.Lawful] in
/-- A tree that was filled is saved unless there are too many entries. -/
theorem saveFilled_ends {entries : List (κ × ν)} (hholding : g.Holding entries R t)
    (hsize : t.descriptor.size = entries.length) (hroot : t.descriptor.root.toNat ≤ maxInt32) :
    Ends (do Tree.setDescriptor t.descriptor; Tree.save) t
      (fun e _ => e = .invalidState (.treeTooLarge entries.length) ∧ maxInt32 < entries.length)
      fun _ t' => g.Holding entries R t' ∧ t'.descriptor.size = entries.length := by
  have hlength := Descriptor.length_of_size hsize
  obtain ⟨level, x, hrooted, hitems⟩ := hholding
  obtain ⟨t₁, hset, hon, hdescriptor, hstore⟩ := setDescriptor_run hrooted.on t.descriptor
  refine ends_bind_of_ok hset ((save_ends hon).mono ?_ ?_)
  · rintro e _ ⟨-, he⟩
    rw [hdescriptor] at he
    obtain ⟨rfl, hlarge⟩ := Descriptor.encode_error hroot he
    rw [hlength] at hlarge ⊢
    exact ⟨rfl, hlarge⟩
  · rintro - t₂ ⟨hon', hdescriptor', hheap⟩
    have hsame : t₂.descriptor = t.descriptor := hdescriptor'.trans hdescriptor
    have hH : heap t₂ = heap t := hheap.trans (congrArg LawfulStore.heap hstore)
    refine ⟨⟨level, x, ⟨hon', ?_, ?_, hrooted.sound, ?_⟩, hitems⟩, by rw [hsame, hsize]⟩
    · rw [hsame, hrooted.root_eq]
    · rw [hsame, hrooted.leafLevel_eq]
    · rw [hH]
      exact hrooted.holds

/-- Loading fills a tree that was empty, unless an entry is refused, the tree is not
empty or there are too many entries. -/
theorem load_ends (hdense : g.isDense = false) {items entries : List (κ × ν)}
    (h : g.Holding items R t) :
    Ends (Tree.load entries) t
      (fun e _ => e = .invalidState (.treeNotEmpty t.length) ∧ t.descriptor.size ≠ 0 ∨
        e = .invalidState (.treeTooLarge entries.length) ∧ maxInt32 < entries.length ∨
        g.Refuses entries e)
      fun _ t' => t.descriptor.size = 0 ∧ g.Holding entries R t' ∧
        t'.descriptor.size = entries.length := by
  obtain ⟨indexes, leaves, t₁, t₂, hblocks, hfree, hfree', hstays, hH⟩ := freeTree_run h
  have hfill := addAll_ends hdense entries (seen_nil hstays.on hH)
  rw [Ends] at hfill
  rw [Tree.load]
  refine ends_bind_get ?_
  cases hempty : t.isEmpty with
  | false =>
    rw [Tree.isEmpty, decide_eq_false_iff_not] at hempty
    exact ends_throw (.inl ⟨rfl, hempty⟩)
  | true =>
    rw [Tree.isEmpty, decide_eq_true_iff] at hempty
    refine ends_bind_lift hblocks (ends_bind_of_ok hfree (ends_bind_of_ok hfree'
      (ends_bind_get ?_)))
    split at hfill
    · next a l hrun =>
      obtain ⟨hholding, hsize, hroot⟩ := hfill
      simp only [hrun]
      refine ends_bind_set ((saveFilled_ends hholding hsize hroot).mono ?_ ?_)
      · exact fun _ _ he => .inr (.inl he)
      · exact fun _ _ ht' => ⟨hempty, ht'⟩
    · next e l hrun =>
      obtain ⟨hrefuses, hon⟩ := hfill
      simp only [hrun]
      refine ends_bind_set ?_
      obtain ⟨t₃, hfreed, hon₃⟩ := freeAll_run hon
      refine ends_bind_of_ok hfreed ?_
      rw [emptyLeaf_eq hstays.on]
      refine ((addLeaf_ends hon₃ (Nat.zero_le _) (Heap.holds_nil.2 rfl)).imp_error
        (fun _ _ he => .inr (.inr (.inl he.1.isOutOfSpace)))).bind fun n t₄ _ => ?_
      exact ends_bind_of_ok rfl (ends_throw (.inr (.inr hrefuses)))

end PagedMap.Regime
