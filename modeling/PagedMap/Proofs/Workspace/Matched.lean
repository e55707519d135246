/-
# Stores in files of which the same blocks are seen

Of two stores of which the same blocks are seen the first is followed further: it stays in
its file, which goes on telling all of it, and its reserve begins with a descriptor once
that was saved.

Key definitions: `Device.InFile`, `Device.Paired`.
Key theorem: `Device.paired_mirrors`.
-/
import PagedMap.Proofs.Tree.Matching
import PagedMap.Proofs.Workspace.Opening

namespace PagedMap

namespace Device

variable {id : FileId} {h : Header} {d? : Option Descriptor} {s s' : Device}

/-- The store is in a file that tells all of it. -/
def InFile (id : FileId) (h : Header) (s : Device) : Prop :=
  ∃ f : FileStore, s = .file id f ∧ f.Recorded ∧ f.header = h

theorem InFile.run (hs : s.InFile id h) (c : StoreCall) : (c.run s).2.InFile id h := by
  obtain ⟨f, rfl, hrecorded, hheader⟩ := hs
  obtain ⟨hnext, hsame⟩ := hrecorded.run c
  rw [run_file]
  exact ⟨_, rfl, hnext, hsame.trans hheader⟩

/-- The first store is in its file, and the same blocks are seen of the second. -/
def Paired (id : FileId) (h : Header) (d? : Option Descriptor) (s s' : Device) : Prop :=
  s.InFile id h ∧ Matching d? s s'

theorem paired_iff : Paired id h d? s s' ↔
    s.InFile id h ∧ s.Exact ∧ s'.Exact ∧ Ideal.Matches d? s.ideal s'.ideal :=
  and_congr_right fun _ => matching_iff

theorem Paired.exact (hp : Paired id h d? s s') : s.Exact ∧ s'.Exact := hp.2.exact

theorem Paired.matches (hp : Paired id h d? s s') : Ideal.Matches d? s.ideal s'.ideal :=
  hp.2.matches

/-- Paired stores mirror each other. -/
theorem paired_mirrors (id : FileId) (h : Header) : Mirrors (Paired id h) where
  blockSize_eq hp := matching_mirrors.blockSize_eq hp.2
  read_eq hp := matching_mirrors.read_eq hp.2
  isAllocated_eq hp := matching_mirrors.isAllocated_eq hp.2
  allocatedCount_eq hp := matching_mirrors.allocatedCount_eq hp.2
  allocate_agrees d? kind data :=
    (matching_mirrors.allocate_agrees d? kind data).keeps fun s hs => by
      rw [← snd_bind_pure _ StoreAnswer.block]
      exact hs.run (.allocate kind data)
  write_agrees d? kind n data :=
    (matching_mirrors.write_agrees d? kind n data).keeps fun s hs => by
      rw [← snd_bind_pure _ fun _ => StoreAnswer.done]
      exact hs.run (.write kind n data)
  free_agrees d? kind n :=
    (matching_mirrors.free_agrees d? kind n).keeps fun s hs => by
      rw [← snd_bind_pure _ fun _ => StoreAnswer.done]
      exact hs.run (.free kind n)
  sync_agrees d? :=
    (matching_mirrors.sync_agrees d?).keeps fun s hs => by
      rw [LawfulStore.sync_eq]
      exact hs
  setReserve {d? s s' d bs} hp hencode := by
    obtain ⟨s₁, s₁', hset, hset', hmatching⟩ := matching_mirrors.setReserve hp.2 hencode
    have hstays := hp.1.run (.setReserve bs)
    rw [StoreCall.run, snd_bind_pure, hset] at hstays
    exact ⟨s₁, s₁', hset, hset', hstays, hmatching⟩
  forget hp := ⟨hp.1, matching_mirrors.forget hp.2⟩

/-- Saving a descriptor in the first store alone is not seen. -/
theorem Paired.saved {d : Descriptor} {bs : Bytes} (hp : Paired id h d? s s')
    (hencode : d.encode = .ok bs) :
    ∃ s₁, Store.setReserve bs s = (.ok (), s₁) ∧ Paired id h (some d) s₁ s' := by
  obtain ⟨hfile, hs, hs', hmatches⟩ := paired_iff.1 hp
  obtain ⟨s₁, hset, hshows⟩ := hs.setReserve hencode
  have hstays := hfile.run (.setReserve bs)
  rw [StoreCall.run, snd_bind_pure, hset] at hstays
  have hset' := hmatches.setReserve hencode
  exact ⟨s₁, hset, hstays, _, hshows, s'.ideal, ⟨hset'.shape_eq, hset'.heap_eq, hset'.tells⟩,
    hs', rfl⟩

/-- Loading the first store from its file is not seen. -/
theorem Paired.reloaded {f f' : FileStore} (hp : Paired id h d? (.file id f) s')
    (hsame : f.Same f') (hf' : f'.Recorded) : Paired id h d? (.file id f') s' := by
  obtain ⟨⟨_, hf, -, hheader⟩, hs, hs', hmatches⟩ := paired_iff.1 hp
  obtain ⟨-, rfl⟩ := Device.file.inj hf
  exact ⟨⟨f', rfl, hf', hsame.header_eq.trans hheader⟩, _, hs.reloaded hsame hf', _, hmatches,
    hs', rfl⟩

theorem Exact.lt_maxBlocks {kind : Pool} {n : BlockNumber} (hs : s.Exact)
    (hn : Store.isAllocated s kind n = true) : n.toNat < s.shape.maxBlocks kind := by
  obtain ⟨-, hmax⟩ := hs.counted kind
  have hvalid : (s.bits kind).Valid := by
    cases s with
    | memory m => exact MemoryStore.Valid.bits_valid hs.valid kind
    | file id f => exact FileStore.Valid.bits_valid hs.valid kind
  rw [← hmax]
  refine hvalid.lt_max _ ?_
  cases s <;> exact hn

end Device

/-! ### Trees in paired stores -/

section Trees

variable {κ ν : Type} {K : OrderedCodec κ} {V : Codec ν} {t u : Tree Device K V} {id : FileId}
  {h : Header} {d? : Option Descriptor} {d : Descriptor} {bs : Bytes} {s s' : Device}

/-- What a tree stores it stores in another store of which the same blocks are seen. -/
theorem Regime.Stores.paired [LinearOrder κ] {g : Regime K V} {R : Heap} {items : List (κ × ν)}
    {d?' : Option Descriptor} (hstores : g.Stores items R t) (hp : Device.Paired id h d? t.store s)
    (hp' : Device.Paired id h d?' s' s) (unsaved : Bool) :
    g.Stores items R (⟨s', t.descriptor, unsaved⟩ : Tree Device K V) := by
  have hshape : s'.shape = t.store.shape := hp'.matches.shape_eq.trans hp.matches.shape_eq.symm
  have hheap : s'.heap = t.store.heap := hp'.matches.heap_eq.trans hp.matches.heap_eq.symm
  exact hstores.moved rfl hp'.exact.1.valid hshape hheap

namespace Tree

/-- A tree is saved in the first store alone. -/
theorem save_paired (hm : t.Mirrored (Device.Paired id h) u)
    (hencode : t.descriptor.encode = .ok bs) :
    ∃ s₁, save t = (.ok (), ⟨s₁, t.descriptor, false⟩) ∧
      Device.Paired id h (some t.descriptor) s₁ u.store := by
  obtain ⟨s₁, hset, hp⟩ := hm.stores.saved hencode
  refine ⟨s₁, ?_, hp⟩
  rw [save_eq t hencode hset, LawfulStore.sync_eq]

/-- The store that is left of a tree tells its descriptor. -/
theorem release_paired (hm : t.Mirrored (Device.Paired id h) u)
    (hencode : t.descriptor.encode = .ok bs) :
    Device.Paired id h (some t.descriptor) t.release u.store := by
  rw [release]
  cases hunsaved : t.unsaved with
  | true =>
    obtain ⟨s₁, hsave, hp⟩ := save_paired hm hencode
    rw [if_pos rfl, hsave]
    exact hp
  | false =>
    have hp := hm.stores
    rw [told?, hunsaved] at hp
    exact hp

/-- A tree is found in a store that tells its descriptor. -/
theorem ofStore_told (hs : s.Exact) (htells : s.ideal.Tells d)
    (hdecode : ∀ bs rest, d.encode = .ok bs → Descriptor.decode (bs ++ rest) = .ok (some d))
    (hroot : Store.isAllocated s (if d.leafLevel < 0 then .leaf else .index) d.root = true) :
    ofStore K V s = (.ok ⟨s, d, false⟩, s) := by
  obtain ⟨bs, hencode, rest, hreserved⟩ := htells
  have hopen : openDescriptor K V s = (.ok d, s) := by
    rw [openDescriptor, bind_eq, get_eq]
    dsimp only
    rw [if_neg (by
      rw [LawfulStore.reserveSize_eq]
      exact Nat.not_lt.2 hs.valid.shape_valid.descriptorSize_le), bind_eq, lift_eq, hs.reserve_eq,
      ← hreserved]
    dsimp only
    rw [bind_eq, lift_eq, hdecode bs rest hencode]
    dsimp only
    rw [if_pos hroot]
    rfl
  rw [ofStore, hopen]

/-- A tree that is made in a store tells its descriptor there. -/
theorem ofStore_paired (hp : Device.Paired id h none s s) (hblank : IsBlank s)
    (hopen : ofStore K V s = (.ok t, s')) :
    t.Mirrored (Device.Paired id h) t ∧ s' = t.store :=
  ofStore_mirrored (Device.paired_mirrors id h) hp hblank hopen

end Tree

end Trees

end PagedMap
