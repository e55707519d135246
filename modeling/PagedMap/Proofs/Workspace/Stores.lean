/-
# Stores in files and in memory do the same

Stores that were just made with the same options show the same, whether they are in a
file or in memory (`Device.shows_of_create`). Whatever is then asked of both, they answer the
same, and the store in the file may be given up and opened again at any time
(`Workspace.stores_alike`).

Key definitions: `Ideal.fresh`, `StoreStep`, `Workspace.InStep`.
Key theorems: `Device.shows_of_create`, `Workspace.step_agrees`, `Workspace.stores_alike`.
-/
import PagedMap.Proofs.Workspace.Reopened

namespace PagedMap

variable {split : Bool} {o : Options} {path : String}

/-! ### Stores that were just made -/

/-- The dimensions of a store with one pool or with two. -/
def Options.shape (split : Bool) (o : Options) : Shape where
  isShared := !split
  blockSize
    | .leaf => o.blockSize
    | .index => if split then o.regionBlockSize else o.blockSize
  maxBlocks
    | .leaf => o.maxBlocks
    | .index => if split then o.regionMaxBlocks else o.maxBlocks
  reserveSize := o.reserveSize

/-- A store without blocks whose reserve is of zeros. -/
def Ideal.fresh (split : Bool) (o : Options) : Ideal :=
  ⟨o.shape split, fun _ => none, List.replicate o.reserveSize 0⟩

namespace Device

variable {s : Device} {f : FileStore} {id : FileId}

theorem Blank.shows (h : s.Blank) (hs : s.Faithful) (hshape : s.shape = o.shape split) :
    s.Shows (.fresh split o) := by
  refine ⟨⟨h.valid, hs⟩, ?_⟩
  rw [ideal, h.heap_eq, h.reserved_eq, hshape]
  rfl

/-- A store in a new file shows no blocks. -/
theorem shows_of_create (ho : o.Fits)
    (hmade : FileStore.create path (.ofOptions split o) .empty = .ok f) :
    (Device.file id f).Shows (.fresh split o) := by
  have hs := Header.ofOptions_stored ho split
  have hheader : Header.plain o = .ok (.ofOptions split o) ∨
      Header.split o = .ok (.ofOptions split o) := by
    cases split with
    | false => exact .inl (Header.plain_eq ho)
    | true => exact .inr (Header.split_eq ho)
  have hblank : (Device.file id f).Blank :=
    (Fresh.file (Options.validate_eq.2 ho) hheader rfl hmade).blank
  refine hblank.shows (FileStore.create_recorded hs hmade).1 ?_
  obtain ⟨l, hl, -⟩ := Layout.ofHeader_spec hs.toFits
  rw [FileStore.create_eq hl] at hmade
  obtain rfl := Except.ok.inj hmade
  change FileStore.shape (FileStore.blank ..) = _
  rw [FileStore.shape, Options.shape, Shape.mk.injEq]
  cases split <;> refine ⟨rfl, funext fun kind => ?_, funext fun kind => ?_, rfl⟩ <;>
    cases kind <;> rfl

/-- A store in memory that was just made shows no blocks. -/
theorem exists_inMemory (ho : o.Fits) (split : Bool) (path : String) :
    ∃ m : MemoryStore, (∀ d, openAs (.inMemory split) path o d = (.ok (.memory m), d)) ∧
      (Device.memory m).Shows (.fresh split o) := by
  have hvalid := Options.validate_eq.2 ho
  cases split with
  | false =>
    have hmade : MemoryStore.shared o =
        .ok ⟨.empty o.blockSize o.maxBlocks, none, o.reserveSize, []⟩ := by
      rw [MemoryStore.shared, hvalid]
      rfl
    refine ⟨_, fun d => ?_, (Fresh.shared hmade).blank.shows (fun kind => ?_) ?_⟩
    · change (liftM (MemoryStore.shared o) >>= fun s => pure (.memory s) : Action Disk Device) d = _
      rw [bind_eq, lift_eq, hmade]
      rfl
    · cases kind <;> exact Bitset.counted_empty _
    · change MemoryStore.shape _ = _
      rw [MemoryStore.shape, Options.shape, Shape.mk.injEq]
      refine ⟨rfl, funext fun kind => ?_, funext fun kind => ?_, rfl⟩ <;> cases kind <;> rfl
  | true =>
    have hmade : MemoryStore.split o = .ok ⟨.empty o.blockSize o.maxBlocks,
        some (.empty o.regionBlockSize o.regionMaxBlocks), o.reserveSize, []⟩ := by
      rw [MemoryStore.split, hvalid]
      rfl
    refine ⟨_, fun d => ?_, (Fresh.split hmade).blank.shows (fun kind => ?_) ?_⟩
    · change (liftM (MemoryStore.split o) >>= fun s => pure (.memory s) : Action Disk Device) d = _
      rw [bind_eq, lift_eq, hmade]
      rfl
    · cases kind <;> exact Bitset.counted_empty _
    · change MemoryStore.shape _ = _
      rw [MemoryStore.shape, Options.shape, Shape.mk.injEq]
      refine ⟨rfl, funext fun kind => ?_, funext fun kind => ?_, rfl⟩ <;> cases kind <;> rfl

/-- Exact stores that show the same give the same answers, and still show the same then. -/
theorem run_alike {i : Ideal} {s s' : Device} (h : s.Shows i) (h' : s'.Shows i) (c : StoreCall) :
    (c.run s).1 = (c.run s').1 ∧ ∃ i', (c.run s).2.Shows i' ∧ (c.run s').2.Shows i' := by
  obtain ⟨hr, hshows⟩ := run_agrees c s i h
  obtain ⟨hr', hshows'⟩ := run_agrees c s' i h'
  exact ⟨hr.trans hr'.symm, _, hshows, hshows'⟩

end Device

/-! ### Steps -/

/-- What is done with a store: something is asked of it, or it is given up and opened again. -/
inductive StoreStep where
  | ask (c : StoreCall)
  | reopen

namespace Workspace

variable {κ ν : Type} {K : OrderedCodec κ} {V : Codec ν} {w w' : Workspace K V} {h : Header}

/-- Does a step with the open store, which is opened again by an action of its own. -/
def step (reopen : Action (Workspace K V) Unit) :
    StoreStep → Action (Workspace K V) (Option StoreAnswer)
  | .ask c => ask c
  | .reopen => do
    reopen
    return none

/-- The open store is in the file that a path leads to, and it shows the same as the one that
is open in another workspace. -/
structure InStep (path : String) (h : Header) (w w' : Workspace K V) : Prop where
  holds : w.Holds path h
  shows : ∃ i D D', w.device? = some D ∧ w'.device? = some D' ∧ D.Shows i ∧ D'.Shows i

/-- Asking keeps both workspaces in step. -/
theorem ask_agrees (c : StoreCall) :
    Agrees (InStep (K := K) (V := V) path h) (ask c) (ask c) := by
  rintro w w' ⟨hholds, i, D, D', hD, hD', hshows, hshows'⟩
  obtain ⟨hr, i', hnext, hnext'⟩ := Device.run_alike hshows hshows' c
  have hkept := hholds.ask c
  rw [ask, onStore_eq hD] at hkept
  rw [ask, onStore_eq hD, onStore_eq hD', hr]
  exact ⟨rfl, hkept, i', _, _, device?_withDevice .., device?_withDevice .., hnext, hnext'⟩

/-- Opening the file again keeps both workspaces in step, though nothing is done in the
other. -/
theorem reopen_agrees (ho : o.Fits) (hexists : o.errorIfExists = false) :
    Agrees (InStep (K := K) (V := V) path (.ofOptions split o))
      (openStore (.inFile split) path o) (pure ()) := by
  rintro w w' ⟨⟨id, s, hdevice, hlookup, hrecorded, hheader⟩, i, D, D', hD, hD', hshows, hshows'⟩
  obtain rfl : Device.file id s = D := Option.some.inj (hdevice.symm.trans hD)
  obtain ⟨s', w₁, hrun, -, hdevice', hlookup', hrecorded', hsame⟩ :=
    openStore_again ho hexists hlookup hrecorded (content_of_device? hdevice) hheader
  rw [hrun]
  refine ⟨rfl, ⟨id, s', hdevice', hlookup', hrecorded', hsame.header_eq.trans hheader⟩, i,
    .file id s', D', hdevice', hD', ?_, hshows'⟩
  rw [← hshows.2]
  exact hshows.1.reloaded hsame hrecorded'

/-- Every step keeps both workspaces in step. -/
theorem step_agrees (ho : o.Fits) (hexists : o.errorIfExists = false) (s : StoreStep) :
    Agrees (InStep (K := K) (V := V) path (.ofOptions split o))
      (step (openStore (.inFile split) path o) s) (step (pure ()) s) := by
  cases s with
  | ask c => exact ask_agrees c
  | reopen => exact (reopen_agrees ho hexists).bind fun _ => agrees_pure none

/-- **A store in a new file does what a store in memory does.** -/
theorem stores_alike (w w' : Workspace K V) (ho : o.validate = .ok ())
    (hmake : o.createIfMissing = true) (hexists : o.errorIfExists = false)
    (hname : (Path.name? path).isSome) (hmissing : w.disk.lookup? path = none) (split : Bool) :
    ∃ w₁ w₁', openStore (.inFile split) path o w = (.ok (), w₁) ∧
      openStore (.inMemory split) path o w' = (.ok (), w₁') ∧ ∀ steps : List StoreStep,
        (performAll (steps.map (step (openStore (.inFile split) path o))) w₁).1 =
          (performAll (steps.map (step (pure ()))) w₁').1 := by
  have hfits := Options.validate_eq.1 ho
  obtain ⟨id, s, w₁, hopen, hdevice, hlookup, hmade⟩ :=
    openStore_new hfits hmake hname hmissing split
  obtain ⟨m, hmemory, hshows⟩ := Device.exists_inMemory hfits split path
  obtain ⟨hrecorded, hheader⟩ :=
    FileStore.create_recorded (Header.ofOptions_stored hfits split) hmade
  refine ⟨w₁, ⟨w'.disk, some (.memory m), w'.tree?⟩, hopen, ?_, fun steps => ?_⟩
  · rw [openStore_eq, hmemory]
  · have hstep : InStep path (.ofOptions split o) w₁ ⟨w'.disk, some (.memory m), w'.tree?⟩ :=
      ⟨⟨id, s, hdevice, hlookup, hrecorded, hheader⟩, _, _, _, hdevice, rfl,
        Device.shows_of_create hfits hmade, hshows⟩
    exact (agrees_performAll (step_agrees hfits hexists) steps _ _ hstep).1

/-- What a split store in a file answers before and after it is opened again. -/
theorem stores_alike_small :
    let steps : List StoreStep := [.ask (.allocate .leaf [7]), .ask (.allocate .index [8]), .reopen,
      .ask (.free .leaf 3), .ask (.allocatedCount .index), .ask (.allocate .leaf [9])]
    ∃ w : Workspace word32 word32.toCodec,
      openStore (.inFile true) "a" smallOptions (.empty ..) = (.ok (), w) ∧
      (performAll (steps.map (step (openStore (.inFile true) "a" smallOptions))) w).1 =
        [.ok (some (.block 0)), .ok (some (.block 0)), .ok none, .error (.notAllocated .leaf 3),
          .ok (some (.count 1)), .ok (some (.block 1))] := by
  intro steps
  have hname : (Path.name? "a").isSome = true := rfl
  obtain ⟨w, w', hopen, hopen', hsame⟩ := stores_alike (.empty word32 word32.toCodec)
    (.empty word32 word32.toCodec) (rfl : smallOptions.validate = .ok ()) rfl rfl hname rfl true
  refine ⟨w, hopen, (hsame steps).trans ?_⟩
  obtain rfl := (Prod.mk.inj hopen').2
  rfl

end Workspace

end PagedMap
