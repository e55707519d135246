/-
# Loading that fails is undone

When loading fails, what it has written is freed and a new root is allocated. Then the
store holds the same blocks as one in which a tree was just opened, and the root is the
same block (`Tree.restart_run`); so the tree cannot be told from a new one, then or later
(`Tree.load_undone`). A tree that has entries is not loaded, and stays as it is.

Key definition: `Tree.EmptyBeside`.
Key theorems: `Tree.restart_run`, `Tree.load_fails`, `Tree.load_undone`.
-/
import PagedMap.Proofs.Tree.Accounted
import PagedMap.Proofs.Tree.Matching
import PagedMap.Proofs.Tree.Owned

namespace PagedMap

variable {κ ν : Type} {K : OrderedCodec κ} {V : Codec ν} {s s' : Device} {t u : Tree Device K V}

namespace Device

/-- A store that holds no more than another is seen as that one. -/
theorem Extended.matching (h : s.Extended [] s') (hs : s.Exact) : Matching none s' s := by
  obtain ⟨hexact, hshape, hheap⟩ := extended_nil.1 h
  exact matching_iff.2 ⟨hexact, hs, hshape, hheap, fun _ hd => by cases hd⟩

/-- What is written into the reserve of the second store is not seen. -/
theorem Matching.saved {d : Descriptor} {bs : Bytes} {s₁ : Device} (h : Matching none s s')
    (hencode : d.encode = .ok bs) (hset : Store.setReserve bs s' = (.ok (), s₁)) :
    Matching none s s₁ := by
  obtain ⟨hs, hs', hmatches⟩ := matching_iff.1 h
  obtain ⟨s₂, hset', hexact, hideal⟩ := hs'.setReserve hencode
  obtain ⟨-, rfl⟩ := Prod.mk.inj (hset'.symm.trans hset)
  refine matching_iff.2 ⟨hs, hexact, ?_, ?_, fun _ hd => by cases hd⟩
  · rw [hideal]
    exact hmatches.shape_eq
  · rw [hideal]
    exact hmatches.heap_eq

end Device

namespace Tree

/-- The tree is a single empty leaf, and beside it its store holds what another holds. -/
structure EmptyBeside (s : Device) (t : Tree Device K V) : Prop where
  length_eq : t.length = 0
  leafLevel_eq : t.descriptor.leafLevel = -1
  verify_eq : t.verify = .ok ()
  blocks_eq : t.blocks = .ok ([], [t.descriptor.root])
  root_new : Store.isAllocated s .leaf t.descriptor.root = false
  isAllocated_iff : ∀ kind n, Store.isAllocated t.store kind n = true ↔
    n ∈ s.shape.listed ([], [t.descriptor.root]) kind ∨ Store.isAllocated s kind n = true
  read_eq : ∀ kind n, Store.isAllocated s kind n = true →
    Store.read t.store kind n = Store.read s kind n

/-- A reachable tree was opened. -/
theorem Reachable.exists_ofStore {σ : Type} [Store σ] {s : σ} {t : Tree σ K V}
    (h : Reachable K V s t) : ∃ u s', ofStore K V s = (.ok u, s') := by
  induction h with
  | opened hopen => exact ⟨_, _, hopen⟩
  | called _ _ _ ih => exact ih

/-- Where a tree opens, a new root gets the same block. -/
theorem restart_run (hm : Device.Matching none t.store s) (hblank : IsBlank s)
    (hopen : ofStore K V s = (.ok u, s')) : ∃ root t',
      addLeaf (Block.empty K V (Store.blockSize s .leaf)) t = (.ok root, t') ∧
      (⟨t'.store, .empty root, true⟩ : Tree Device K V).Mirrored
        (fun _ => Device.Matching none) u := by
  obtain ⟨rfl, -, hdescriptor, s₁, s₂, bs, hallocate, hencode, hset, hsync⟩ :=
    ofStore_steps hblank hopen
  obtain ⟨hr, hm₁⟩ := Device.matching_mirrors.allocate_agrees none .leaf
    (Block.empty K V (Store.blockSize s .leaf)).toBytes _ _ hm
  rw [hallocate] at hr hm₁
  have hm₂ := hm₁.saved hencode hset
  rw [LawfulStore.sync_eq] at hsync
  obtain ⟨-, rfl⟩ := Prod.mk.inj hsync
  exact ⟨u.descriptor.root, ⟨_, t.descriptor, t.unsaved⟩, Prod.ext hr rfl, hdescriptor.symm, hm₂⟩

section Load

variable [LinearOrder κ] [K.Lawful] {g : Regime K V} {entries : List (κ × ν)}

/-- When all blocks of a tree are freed, its store holds what is beside the tree. -/
theorem freeTree_extended {items : List (κ × ν)} (hg : s.shape = g.shape)
    (hholding : g.Holding items s.heap t) (hm : t.Mirrored (fun _ => Device.Matching none) t) :
    ∃ indexes leaves t₁ t₂, t.blocks = .ok (indexes, leaves) ∧
      indexes.forM (free .index) t = (.ok (), t₁) ∧
      leaves.forM (free .leaf) t₁ = (.ok (), t₂) ∧ g.On t₂ ∧ s.Extended [] t₂.store := by
  have hR := Device.matching_mirrors.loose
  obtain ⟨indexes, leaves, t₁, t₂, hblocks, hfree, hfree', hstays, hH⟩ :=
    Regime.freeTree_run hholding
  have hm₁ := ((agrees_forM (free_agrees hR .index) indexes).ends hm).of_ok hfree
  have hm₂ := ((agrees_forM (free_agrees hR .leaf) leaves).ends hm₁).of_ok hfree'
  exact ⟨indexes, leaves, t₁, t₂, hblocks, hfree, hfree', hstays.on,
    Device.extended_nil.2 ⟨hm₂.stores.exact.1, hstays.on.shape.trans hg.symm, hH⟩⟩

/-- Loading an empty tree, if it fails, leaves one that cannot be told from a new one. -/
theorem load_fails (hdense : g.isDense = false) (hs : s.Exact) (hg : s.shape = g.shape)
    (hblank : IsBlank s) (hopen : ofStore K V s = (.ok u, s')) (hholding : g.Holding [] s.heap t)
    (hm : t.Mirrored (fun _ => Device.Matching none) t) (hempty : t.descriptor.size = 0)
    (hlen : entries.length ≤ maxInt32) :
    Ends (load entries) t (fun _ t' => t'.Mirrored (fun _ => Device.Matching none) u)
      fun _ _ => True := by
  obtain ⟨indexes, leaves, t₁, t₂, hblocks, hfree, hfree', hon, hfreed⟩ :=
    freeTree_extended hg hholding hm
  have hleaf : t₂.emptyLeaf = Block.empty K V (Store.blockSize s .leaf) := by
    rw [emptyLeaf, Device.matching_mirrors.blockSize_eq (hfreed.matching hs)]
  have hstart : Loading.Accounted s
      (⟨t₂, [], [], none, t₂.emptyLeaf, 0, none⟩ : Loading Device K V) :=
    ⟨hfreed, fun _ hp => by cases hp⟩
  -- what was noted tells how a filling that stopped is undone; what was filled tells that one
  -- that went through is also saved
  have hfill := (Regime.addAll_ends hdense entries
    (Regime.seen_nil hon (Device.extended_nil.1 hfreed).2.2)).and
    (Loading.addAll_accounted hstart entries)
  rw [Ends] at hfill
  rw [load]
  refine ends_bind_get ?_
  rw [if_neg (by rw [isEmpty, hempty]; simp)]
  refine ends_bind_lift hblocks (ends_bind_of_ok hfree (ends_bind_of_ok hfree'
    (ends_bind_get ?_)))
  split at hfill
  · next l hrun =>
    obtain ⟨⟨hfilled, hsize, hroot⟩, -⟩ := hfill
    simp only [hrun]
    refine ends_bind_set ((Regime.saveFilled_ends hfilled hsize hroot).mono ?_ ?_)
    · exact fun _ _ he => absurd hlen (Nat.not_le.2 he.2)
    · exact fun _ _ _ => trivial
  · next e l hrun =>
    obtain ⟨-, haccounted⟩ := hfill
    simp only [hrun]
    obtain ⟨t₃, hundo, hextended⟩ := freeAll_extended haccounted.extended
    obtain ⟨root, t₄, hadd, hm₄⟩ := restart_run (hextended.matching hs) hblank hopen
    refine ends_bind_set (ends_bind_of_ok hundo ?_)
    rw [hleaf]
    exact ends_bind_of_ok hadd (ends_bind_of_ok rfl (ends_throw hm₄))

end Load

variable [LinearOrder κ] [K.Lawful] [V.Lawful]

/-- A tree that does the same as a new one is empty, and has one block. -/
theorem emptyBeside_of_mirrored (hs : s.Exact) (hblank : IsBlank s)
    (hopen : ofStore K V s = (.ok u, s')) (hm : t.Mirrored (fun _ => Device.Matching none) u) :
    t.EmptyBeside s := by
  have hmatches := hm.stores.matches
  have hstores : (Regime.ofShape K V s.shape).Stores [] s.heap t :=
    (Regime.ofStore_stores hs.valid hblank hopen).moved hm.descriptor_eq hm.stores.exact.1.valid
      hmatches.shape_eq hmatches.heap_eq
  obtain ⟨hlevel, hblocks⟩ := hstores.leaf_of_nil
  obtain ⟨b, hblocks', howns⟩ := hstores.owns hs.valid rfl
  obtain rfl := Except.ok.inj (hblocks.symm.trans hblocks')
  refine ⟨hstores.length_eq, hlevel, Regime.verify_run hstores, hblocks, ?_,
    fun kind => (howns kind).2.1, fun kind => (howns kind).2.2.2⟩
  refine (howns .leaf).2.2.1 _ ?_
  rw [Shape.listed]
  split <;> exact List.mem_singleton_self _

/-- Loading that fails is undone: the tree is empty again, its store holds the same blocks as
before the tree was opened and a root beside them, and from then on the tree does what a tree
does that is opened in the store as it was. A tree that has entries is not loaded. -/
theorem load_undone (hs : s.Used) (hblank : IsBlank s) (ht : Reachable K V s t)
    (entries : List (κ × ν)) :
    (0 < t.length →
      load entries t = (.error (.invalidState (.treeNotEmpty t.length)), t)) ∧
    (t.length = 0 → entries.length ≤ maxInt32 → ∀ e t', load entries t = (.error e, t') →
      t'.EmptyBeside s ∧ ∃ u s', ofStore K V s = (.ok u, s') ∧ t'.Same u ∧
        ∀ calls : List (TreeCall κ ν),
          (performAll (calls.map TreeCall.run) t').1 =
            (performAll (calls.map TreeCall.run) u).1 ∧
          (performAll (calls.map TreeCall.run) t').2.Same
            (performAll (calls.map TreeCall.run) u).2) := by
  constructor
  · intro hlength
    have hempty : t.isEmpty = false := decide_eq_false fun hsize =>
      absurd (Descriptor.length_of_size (n := 0) hsize) (Nat.ne_of_gt hlength)
    rw [load, bind_eq, get_eq]
    dsimp only
    rw [hempty]
    rfl
  · intro hlength hlen e t' hload
    obtain ⟨u, s', hopen⟩ := ht.exists_ofStore
    obtain ⟨items, hstores⟩ := Regime.reachable_stores hs.valid hblank ht
    obtain rfl : items = [] :=
      List.eq_nil_of_length_eq_zero (hstores.length_eq.symm.trans hlength)
    have hself := ht.mirrored Device.matching_mirrors hs.exact.matching hblank
    have hm := (load_fails rfl hs.exact rfl hblank hopen hstores.holding hself hstores.size_eq
      hlen).of_error hload
    refine ⟨emptyBeside_of_mirrored hs.exact hblank hopen hm, u, s', hopen,
      (hm.twin Device.matching_mirrors.loose).same, fun calls => ?_⟩
    obtain ⟨hanswers, hm'⟩ :=
      agrees_performAll (run_agrees Device.matching_mirrors) calls t' u hm
    exact ⟨hanswers, (hm'.twin Device.matching_mirrors.loose).same⟩

/-- A store in memory with three blocks of 32 bytes. -/
def narrow : Device := .memory ⟨.empty 32 3, none, 20, []⟩

theorem narrow_fresh : Device.Fresh
    { blockSize := 32, maxBlocks := 3, regionBlockSize := 32, reserveSize := 20 } narrow :=
  .shared rfl

/-- The store when something else has its first block. -/
@[irreducible]
def crowded : Device := (Store.allocate .leaf [1, 2, 3] narrow).2

theorem crowded_used : crowded.Used := by
  rw [crowded]
  exact .allocate _ _ (.fresh narrow_fresh)

theorem crowded_blank : IsBlank crowded := by
  rw [crowded]
  exact ⟨_, rfl, rfl⟩

/-- Seven entries, which need three leaves. -/
def sevenEntries : List (UInt32 × UInt32) :=
  [(1, 10), (2, 20), (3, 30), (4, 40), (5, 50), (6, 60), (7, 70)]

/-- There is room for two leaves. When the third cannot be allocated the tree is as new, and
takes an entry; a tree that has one is not loaded. -/
theorem load_undone_crowded : ∃ (t t' : Tree Device word32 word32.toCodec) (e : Error),
    load sevenEntries t = (.error e, t') ∧ t'.EmptyBeside crowded ∧ t'.descriptor.root = 1 ∧
      (insert 3 30 t').1 = .ok none ∧ ∃ u : Tree Device word32 word32.toCodec, u.length = 1 ∧
        load sevenEntries u = (.error (.invalidState (.treeNotEmpty 1)), u) := by
  obtain ⟨⟨_, t⟩, hrun, hfound⟩ := exists_ok_of_toOption
    (f := fun r => (r.2.length, (load sevenEntries r.2).1.toOption,
      (load sevenEntries r.2).2.descriptor.root,
      (insert 3 30 (load sevenEntries r.2).2).1.toOption)) (b := (0, none, 1, some none))
    (x := session word32 word32.toCodec crowded []) (by decide +kernel)
  obtain ⟨hlength, hfails, hroot, hinsert⟩ : t.length = 0 ∧
      (load sevenEntries t).1.toOption = none ∧ (load sevenEntries t).2.descriptor.root = 1 ∧
      (insert 3 30 (load sevenEntries t).2).1.toOption = some none := by simpa using hfound
  obtain ⟨e, he⟩ := exists_error_of_toOption hfails
  have hload : load sevenEntries t = (.error e, (load sevenEntries t).2) := Prod.ext he rfl
  have hundone := (load_undone (K := KeyKind.word32.codec) (V := (ValueKind.key .word32).codec)
    crowded_used crowded_blank (reachable_of_session hrun) sevenEntries).2 hlength (by decide) e _
    hload
  obtain ⟨⟨_, u⟩, hrun', hlength'⟩ := exists_ok_of_toOption (f := fun r => r.2.length)
    (x := session word32 word32.toCodec crowded [.insert 3 30]) (b := 1) (by decide +kernel)
  have hrefused := (load_undone (K := KeyKind.word32.codec) (V := (ValueKind.key .word32).codec)
    crowded_used crowded_blank (reachable_of_session hrun') sevenEntries).1
    (Nat.lt_of_lt_of_eq Nat.zero_lt_one hlength'.symm)
  exact ⟨t, _, e, hload, hundone.1, hroot, eq_ok_of_toOption hinsert, u, hlength',
    hlength' ▸ hrefused⟩

end Tree

end PagedMap
