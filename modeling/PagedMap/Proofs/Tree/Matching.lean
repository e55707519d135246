/-
# Trees in stores of which the same blocks are seen

Two exact stores of which the same blocks are seen, though not the same reserve, do the
same as long as nobody asks for the reserve (`Device.matching_mirrors`). What a tree stores
in the one it stores in the other (`Regime.Stores.moved`). A store that mirrors itself goes
on to do so, whatever is done to a tree in it (`Tree.Reachable.mirrored`); so a store that
was exact when a tree was opened there stays exact.

Key definitions: `Ideal.Tells`, `Ideal.Matches`, `Device.Matching`.
Key theorems: `Device.matching_mirrors`, `Regime.Stores.moved`, `Tree.ofStore_mirrored`,
`Tree.Reachable.mirrored`.
-/
import PagedMap.Proofs.Store.Exact
import PagedMap.Proofs.Tree.Descriptor
import PagedMap.Proofs.Tree.MirroredCalls

namespace PagedMap

namespace Ideal

variable {d : Descriptor} {d? : Option Descriptor} {i j : Ideal} {kind : Pool} {n : BlockNumber}

/-- The reserve begins with the written form of a descriptor. -/
def Tells (i : Ideal) (d : Descriptor) : Prop := ∃ bs, d.encode = .ok bs ∧ bs <+: i.reserved

/-- The same blocks are seen of both, and the reserve of the first tells a descriptor, if
one is given. -/
structure Matches (d? : Option Descriptor) (i j : Ideal) : Prop where
  shape_eq : i.shape = j.shape
  heap_eq : i.heap = j.heap
  tells : ∀ d ∈ d?, i.Tells d

theorem Matches.put (h : Matches d? i j) (kind : Pool) (n : BlockNumber) (v : Option Bytes) :
    Matches d? (i.put kind n v) (j.put kind n v) := by
  refine ⟨h.shape_eq, ?_, h.tells⟩
  rw [Ideal.put, Ideal.put, h.shape_eq, h.heap_eq]

theorem Matches.holds_eq (h : Matches d? i j) (kind : Pool) (n : BlockNumber) :
    i.holds kind n = j.holds kind n := by
  rw [holds, holds, h.shape_eq, h.heap_eq]

theorem Matches.read_eq (h : Matches d? i j) (kind : Pool) (n : BlockNumber) :
    i.read kind n = j.read kind n := by
  rw [read, read, h.shape_eq, h.heap_eq]

theorem Matches.numbers_eq (h : Matches d? i j) (kind : Pool) :
    i.numbers kind = j.numbers kind := by
  rw [numbers, numbers, h.shape_eq]

theorem allocate_matches (d? : Option Descriptor) (kind : Pool) (data : Bytes) :
    Agrees (Matches d?) (allocate kind data) (allocate kind data) := by
  refine agrees_bind_get fun i j h => ?_
  have hfree : i.lowestFree? kind = j.lowestFree? kind := by
    rw [lowestFree?, lowestFree?, h.numbers_eq, funext (h.holds_eq kind)]
  rw [hfree, h.shape_eq]
  cases j.lowestFree? kind with
  | none => exact agrees_throw _
  | some n => exact (agrees_set (h.put ..)).bind fun _ => agrees_pure n

theorem write_matches (d? : Option Descriptor) (kind : Pool) (n : BlockNumber) (data : Bytes) :
    Agrees (Matches d?) (write kind n data) (write kind n data) := by
  refine agrees_bind_get fun i j h => ?_
  rw [check, check, h.holds_eq, h.shape_eq]
  exact (agrees_lift rfl).bind fun _ => agrees_set (h.put ..)

theorem free_matches (d? : Option Descriptor) (kind : Pool) (n : BlockNumber) :
    Agrees (Matches d?) (free kind n) (free kind n) := by
  refine agrees_bind_get fun i j h => ?_
  rw [check, check, h.holds_eq]
  exact (agrees_lift rfl).bind fun _ => agrees_set (h.put ..)

/-- What was taken into the reserve is told there. -/
theorem Matches.setReserve (h : Matches d? i j) {bs : Bytes} (hencode : d.encode = .ok bs) :
    Matches (some d) { i with reserved := bs ++ i.reserved.drop bs.length }
      { j with reserved := bs ++ j.reserved.drop bs.length } := by
  refine ⟨h.shape_eq, h.heap_eq, ?_⟩
  rintro _ ⟨⟩
  exact ⟨bs, hencode, List.prefix_append ..⟩

theorem Matches.forget (h : Matches d? i j) : Matches none i j :=
  ⟨h.shape_eq, h.heap_eq, fun _ hd => by cases hd⟩

end Ideal

namespace Device

variable {d? : Option Descriptor} {s s' : Device}

/-- A descriptor is taken into the reserve. -/
theorem Exact.setReserve {d : Descriptor} {bs : Bytes} (hs : s.Exact)
    (hencode : d.encode = .ok bs) : ∃ s', Store.setReserve bs s = (.ok (), s') ∧
      s'.Shows { s.ideal with reserved := bs ++ s.ideal.reserved.drop bs.length } := by
  have hlen : bs.length ≤ s.ideal.shape.reserveSize := by
    rw [Descriptor.length_of_encode hencode]
    exact hs.valid.shape_valid.descriptorSize_le
  obtain ⟨hr, hshows⟩ := setReserve_agrees bs s s.ideal ⟨hs, rfl⟩
  rw [show Store.setReserve bs s.ideal = _ from Ideal.setReserve_of_le hlen] at hr hshows
  exact ⟨_, Prod.ext hr rfl, hshows⟩

/-- The stores are exact, and the same blocks are seen of both. -/
def Matching (d? : Option Descriptor) : Device → Device → Prop :=
  Relation.Comp Shows (Relation.Comp (Ideal.Matches d?) (flip Shows))

theorem matching_iff :
    Matching d? s s' ↔ s.Exact ∧ s'.Exact ∧ Ideal.Matches d? s.ideal s'.ideal := by
  constructor
  · rintro ⟨_, ⟨hs, rfl⟩, _, hmatches, hs', rfl⟩
    exact ⟨hs, hs', hmatches⟩
  · rintro ⟨hs, hs', hmatches⟩
    exact ⟨_, ⟨hs, rfl⟩, _, hmatches, hs', rfl⟩

theorem Matching.exact (h : Matching d? s s') : s.Exact ∧ s'.Exact :=
  ⟨(matching_iff.1 h).1, (matching_iff.1 h).2.1⟩

theorem Matching.matches (h : Matching d? s s') : Ideal.Matches d? s.ideal s'.ideal :=
  (matching_iff.1 h).2.2

theorem Exact.matching (h : s.Exact) : Matching none s s :=
  matching_iff.2 ⟨h, h, rfl, rfl, fun _ hd => by cases hd⟩

/-- What stores of any kind do alike and ideal stores do alike, matching stores do alike. -/
theorem matching_agrees {α : Type} {act : Action Device α} {ideal : Action Ideal α}
    (hact : Agrees Shows act ideal) (hideal : Agrees (Ideal.Matches d?) ideal ideal) :
    Agrees (Matching d?) act act :=
  hact.comp (hideal.comp hact.swap)

/-- Matching stores mirror each other. -/
theorem matching_mirrors : Mirrors Matching where
  blockSize_eq {_ s s'} h := by
    funext kind
    rw [LawfulStore.blockSize_eq, LawfulStore.blockSize_eq]
    exact congrArg (Shape.blockSize · kind) h.matches.shape_eq
  read_eq h := by
    funext kind n
    rw [h.exact.1.read_eq, h.exact.2.read_eq, h.matches.read_eq]
  isAllocated_eq h := by
    funext kind n
    rw [h.exact.1.isAllocated_eq, h.exact.2.isAllocated_eq, h.matches.holds_eq]
  allocatedCount_eq h := by
    funext kind
    rw [h.exact.1.allocatedCount_eq, h.exact.2.allocatedCount_eq, h.matches.numbers_eq,
      funext (h.matches.holds_eq kind)]
  allocate_agrees d? kind data :=
    matching_agrees (allocate_agrees kind data) (Ideal.allocate_matches d? kind data)
  write_agrees d? kind n data :=
    matching_agrees (write_agrees kind n data) (Ideal.write_matches d? kind n data)
  free_agrees d? kind n := matching_agrees (free_agrees kind n) (Ideal.free_matches d? kind n)
  sync_agrees _ := matching_agrees sync_agrees (agrees_pure ())
  setReserve {d? s s' d bs} h hencode := by
    obtain ⟨hs, hs', hmatches⟩ := matching_iff.1 h
    obtain ⟨s₁, hset, hshows⟩ := hs.setReserve hencode
    obtain ⟨s₁', hset', hshows'⟩ := hs'.setReserve hencode
    exact ⟨s₁, s₁', hset, hset', _, hshows, _, hmatches.setReserve hencode, hshows'⟩
  forget h := by
    obtain ⟨hs, hs', hmatches⟩ := matching_iff.1 h
    exact matching_iff.2 ⟨hs, hs', hmatches.forget⟩

end Device

/-! ### Trees -/

section Moved

variable {σ κ ν : Type} [Store σ] [LawfulStore σ] [LinearOrder κ] {K : OrderedCodec κ}
  {V : Codec ν} {g : Regime K V} {R : Heap} {t t' : Tree σ K V} {items : List (κ × ν)}

/-- What a tree stores it stores in another store that has the same blocks. -/
theorem Regime.Stores.moved (h : g.Stores items R t) (hdescriptor : t'.descriptor = t.descriptor)
    (hvalid : LawfulStore.Valid t'.store)
    (hshape : LawfulStore.shape t'.store = LawfulStore.shape t.store) (hheap : heap t' = heap t) :
    g.Stores items R t' := by
  obtain ⟨⟨level, x, hrooted, rfl⟩, hsize⟩ := h
  refine ⟨⟨level, x, ⟨⟨hvalid, hshape.trans hrooted.on.shape⟩, ?_, ?_, hrooted.sound, ?_⟩, rfl⟩, ?_⟩
  · rw [hdescriptor, hrooted.root_eq]
  · rw [hdescriptor, hrooted.leafLevel_eq]
  · rw [hheap]
    exact hrooted.holds
  · rw [hdescriptor, hsize]

end Moved

section Opened

variable {σ κ ν : Type} [Store σ] {K : OrderedCodec κ} {V : Codec ν}
  {R : Option Descriptor → σ → σ → Prop} {s s' : σ} {t : Tree σ K V}

namespace Tree

/-- A tree that opens in a blank store got a leaf there, and its descriptor was written. -/
theorem ofStore_steps (hblank : IsBlank s) (hopen : ofStore K V s = (.ok t, s')) :
    s' = t.store ∧ t.unsaved = false ∧ t.descriptor = .empty t.descriptor.root ∧ ∃ s₁ s₂ bs,
      Store.allocate .leaf (Block.empty K V (Store.blockSize s .leaf)).toBytes s =
        (.ok t.descriptor.root, s₁) ∧ t.descriptor.encode = .ok bs ∧
      Store.setReserve bs s₁ = (.ok (), s₂) ∧ Store.sync s₂ = (.ok (), s') := by
  obtain ⟨bs, hreserve, hdecode⟩ := hblank
  have hends : Ends (openDescriptor K V) s (fun _ _ => True) fun d s' =>
      d = .empty d.root ∧ ∃ s₁ s₂ bs,
        Store.allocate .leaf (Block.empty K V (Store.blockSize s .leaf)).toBytes s =
          (.ok d.root, s₁) ∧ d.encode = .ok bs ∧
        Store.setReserve bs s₁ = (.ok (), s₂) ∧ Store.sync s₂ = (.ok (), s') := by
    rw [openDescriptor]
    refine ends_bind_get ?_
    split
    · exact ends_throw trivial
    refine ends_bind_lift hreserve (ends_bind_lift hdecode ?_)
    dsimp only
    refine ((ends_run _ s).imp_error fun _ _ _ => trivial).bind fun root s₁ hallocate => ?_
    cases hencode : (Descriptor.empty root).encode with
    | error e => exact trivial
    | ok written =>
      refine ends_bind_lift rfl ?_
      refine ((ends_run _ s₁).imp_error fun _ _ _ => trivial).bind fun _ s₂ hset => ?_
      refine ((ends_run _ s₂).imp_error fun _ _ _ => trivial).bind fun _ s₃ hsync => ?_
      exact ends_pure ⟨rfl, s₁, s₂, written, hallocate, hencode, hset, hsync⟩
  rw [ofStore] at hopen
  split at hopen
  · next d s₁ hrun =>
    obtain ⟨ht, rfl⟩ := Prod.mk.inj hopen
    obtain rfl := Except.ok.inj ht
    exact ⟨rfl, rfl, hends.of_ok hrun⟩
  · cases hopen

/-- A tree that is made in a store that mirrors itself tells its descriptor there. -/
theorem ofStore_mirrored (hR : Mirrors R) (hs : R none s s) (hblank : IsBlank s)
    (hopen : ofStore K V s = (.ok t, s')) : t.Mirrored R t ∧ s' = t.store := by
  obtain ⟨rfl, hsaved, -, s₁, s₂, bs, hallocate, hencode, hset, hsync⟩ := ofStore_steps hblank hopen
  have hs₁ := ((hR.allocate_agrees none _ _).ends hs).of_ok hallocate
  obtain ⟨s₂, s₂', hset', hset'', hs₂⟩ := hR.setReserve hs₁ hencode
  obtain ⟨-, rfl⟩ := Prod.mk.inj (hset'.symm.trans hset)
  obtain ⟨-, rfl⟩ := Prod.mk.inj (hset''.symm.trans hset)
  refine ⟨⟨rfl, ?_⟩, rfl⟩
  rw [told?, hsaved]
  exact ((hR.sync_agrees _).ends hs₂).of_ok hsync

/-- A store that mirrors itself does so whatever is done to a tree in it. -/
theorem Reachable.mirrored (hR : Mirrors R) (hs : R none s s) (hblank : IsBlank s)
    (ht : Reachable K V s t) : t.Mirrored (fun _ => R none) t := by
  induction ht with
  | opened hopen => exact (ofStore_mirrored hR hs hblank hopen).1.loose hR
  | called c _ hcall ih => exact ((run_agrees hR (.change c)).ends ih).of_ok hcall

end Tree

end Opened

end PagedMap
