/-
# Stores in a workspace

A store in a workspace is put together of what the workspace keeps of it and the content
of its file (`Workspace.device?`). Doing something with the store leaves there what was
done, and the names of the files alone (`Workspace.onStore_eq`). Opening a store in a
file makes one if the file is empty, and loads it else (`Device.openFile_new`,
`Device.openFile_again`).

Key definitions: `DeviceKind.inFile`, `Header.ofOptions`, `Workspace.device?`.
Key theorems: `Device.openFile_new`, `Device.openFile_again`, `Workspace.onStore_eq`.
-/
import PagedMap.Proofs.Store.Exact
import PagedMap.Workspace

namespace PagedMap

/-! ### Kinds of stores -/

/-- A plain or split store in a file. -/
def DeviceKind.inFile (split : Bool) : DeviceKind := if split then .fileSplit else .file

/-- A plain or split store in memory. -/
def DeviceKind.inMemory (split : Bool) : DeviceKind := if split then .memorySplit else .memory

/-- The header of a plain or split file of the given options. -/
def Header.ofOptions (split : Bool) (o : Options) : Header :=
  ⟨formatVersion, o.blockSize, o.maxBlocks, o.reserveSize,
    if split then some ⟨o.regionBlockSize, o.regionMaxBlocks⟩ else none⟩

variable {split : Bool} {o : Options} {path : String}

theorem Header.ofOptions_eq (ho : o.Fits) :
    (if split then Header.split o else plain o) = .ok (ofOptions split o) := by
  cases split with
  | false => exact plain_eq ho
  | true => exact split_eq ho

theorem Header.ofOptions_stored (ho : o.Fits) (split : Bool) : (ofOptions split o).Stored := by
  cases split with
  | false => exact stored_of_fits ho (.inl (plain_eq ho))
  | true => exact stored_of_fits ho (.inr (split_eq ho))

namespace Disk

variable {d d' : Disk} {id : FileId} {f : File}

/-! ### Names and contents -/

theorem content_setContent (d : Disk) (id : FileId) (f : File) :
    (d.setContent id f).content id = f := by
  simp [setContent, content]

/-- Two directories with the same names and the same contents. -/
structure Same (d d' : Disk) : Prop where
  names_eq : d'.names = d.names
  content_eq : ∀ id, d'.content id = d.content id

theorem Same.refl (d : Disk) : d.Same d := ⟨rfl, fun _ => rfl⟩

theorem same_setContent (h : d.content id = f) : d.Same (d.setContent id f) := by
  refine ⟨rfl, fun other => ?_⟩
  by_cases heq : id = other
  · rw [← heq, content_setContent, h]
  · simp [setContent, content, Std.TreeMap.getElem?_insert, heq]

/-- A file that is there is found. -/
theorem openBacking_found (hexists : o.errorIfExists = false) (h : d.lookup? path = some id) :
    openBacking o path d = (.ok id, d) := by
  rw [openBacking, bind_eq, get_eq]
  dsimp only
  rw [pathExists, h, Option.isSome_some, Bool.true_or, if_pos rfl, hexists,
    if_neg Bool.false_ne_true, find, h]
  rfl

/-- Where no file is, one without content is made. -/
theorem openBacking_missing (hmake : o.createIfMissing = true) (hname : (Path.name? path).isSome)
    (h : d.lookup? path = none) : ∃ d', openBacking o path d = (.ok d.fresh, d') ∧
      d'.lookup? path = some d.fresh ∧ d'.content d.fresh = .empty := by
  obtain ⟨name, hname⟩ := Option.isSome_iff_exists.1 hname
  have hdirectory : Path.isDirectory path = false := by
    refine Bool.eq_false_iff.2 fun hdir => ?_
    rw [Path.name?_of_isDirectory path hdir] at hname
    cases hname
  refine ⟨⟨(name, d.fresh) :: d.names, d.files.insert d.fresh .empty, d.fresh + 1⟩, ?_, ?_, ?_⟩
  · rw [openBacking, bind_eq, get_eq]
    dsimp only
    rw [pathExists, h, hdirectory, Option.isSome_none, Bool.or_false, if_neg Bool.false_ne_true,
      hmake, if_pos rfl, make, hname]
    rfl
  · rw [lookup?, hname]
    exact List.lookup_cons_self
  · simp [content]

/-- Whatever file is given for a path, the path leads to it. -/
theorem openBacking_ends (o : Options) (path : String) (d : Disk) :
    Ends (openBacking o path) d (fun _ _ => True) fun id d' => d'.lookup? path = some id := by
  rw [openBacking]
  refine ends_bind_get ?_
  split
  · split
    · exact trivial
    · rw [find]
      cases hlookup : d.lookup? path with
      | none => exact trivial
      | some id => exact ends_of_ok rfl hlookup
  · split
    · rw [make]
      cases hname : Path.name? path with
      | none => exact trivial
      | some name =>
        refine ends_of_ok rfl ?_
        rw [lookup?, hname]
        exact List.lookup_cons_self
    · exact trivial

/-- Where no file is, a file without content is given. -/
theorem openBacking_empty (h : d.lookup? path = none) :
    Ends (openBacking o path) d (fun _ _ => True) fun id d' => d'.content id = .empty := by
  rw [openBacking]
  refine ends_bind_get ?_
  split
  · split
    · exact trivial
    · rw [find, h]
      exact trivial
  · split
    · rw [make]
      cases Path.name? path with
      | none => exact trivial
      | some name =>
        refine ends_of_ok rfl ?_
        simp [content]
    · exact trivial

end Disk

namespace Device

variable {d : Disk} {id : FileId} {s : FileStore} {D : Device}

/-! ### Opening a store -/

theorem openAs_inFile (split : Bool) (path : String) (o : Options) :
    openAs (.inFile split) path o = openFile split path o := by
  cases split <;> rfl

/-- The store that is made in an empty file or loaded from another. -/
def made (path : String) (wanted : Header) (f : File) : Except Error FileStore :=
  if f.size = 0 then FileStore.create path wanted f else FileStore.load path wanted f

/-- What opening does once the file is found. -/
def openContent (path : String) (wanted : Header) (id : FileId) : Action Disk Device := do
  let d ← get
  let s ← made path wanted (d.content id)
  set (d.setContent id s.file)
  return .file id { s with file := .empty }

theorem openFile_of_fits (ho : o.Fits) (split : Bool) (path : String) (d : Disk) :
    openFile split path o d =
      (Disk.openBacking o path >>= openContent path (.ofOptions split o)) d := by
  have hrest : (fun id => do
      let d ← get
      let f := d.content id
      let s ← if f.size = 0 then FileStore.create path (.ofOptions split o) f
        else FileStore.load path (.ofOptions split o) f
      set (d.setContent id s.file)
      return Device.file id { s with file := .empty }) =
      openContent path (.ofOptions split o) := by
    funext id d
    rw [openContent, bind_eq, bind_eq, get_eq]
    dsimp only
    rw [made]
    split <;> rfl
  rw [← hrest, openFile, bind_eq, lift_eq, Options.validate_eq.2 ho]
  have hheader : (if split then Header.split o else Header.plain o) = .ok (.ofOptions split o) :=
    Header.ofOptions_eq ho
  cases split with
  | false =>
    rw [if_neg Bool.false_ne_true] at hheader ⊢
    rw [hheader]
    rfl
  | true =>
    rw [if_pos rfl] at hheader ⊢
    rw [hheader]
    rfl

theorem openContent_ok {wanted : Header} (h : made path wanted (d.content id) = .ok s) :
    openContent path wanted id d =
      (.ok (.file id { s with file := .empty }), d.setContent id s.file) := by
  rw [openContent, bind_eq, get_eq]
  dsimp only
  rw [h]
  rfl

theorem openContent_error {wanted : Header} {e : Error}
    (h : made path wanted (d.content id) = .error e) :
    openContent path wanted id d = (.error e, d) := by
  rw [openContent, bind_eq, get_eq]
  dsimp only
  rw [h]
  rfl

theorem size_empty : File.empty.size = 0 := rfl

theorem made_recorded {wanted : Header} {f : File} (hs : wanted.Stored)
    (h : made path wanted f = .ok s) : s.Recorded ∧ s.header = wanted := by
  rw [made] at h
  split at h
  · exact FileStore.create_recorded hs h
  · obtain ⟨hrecorded, hheader, -⟩ := FileStore.load_recorded hs h
    exact ⟨hrecorded, hheader⟩

/-- A store that is opened in a file was made there or loaded. -/
theorem openFile_made {d' : Disk} (h : openFile split path o d = (.ok D, d')) :
    o.Fits ∧ ∃ (id : FileId) (d₁ : Disk) (s : FileStore),
      Disk.openBacking o path d = (.ok id, d₁) ∧
      made path (.ofOptions split o) (d₁.content id) = .ok s ∧
      D = .file id { s with file := .empty } ∧ d' = d₁.setContent id s.file := by
  have ho : o.Fits := by
    refine Options.validate_eq.1 ?_
    rw [openFile, bind_eq, lift_eq] at h
    cases hvalid : o.validate with
    | ok => rfl
    | error e =>
      rw [hvalid] at h
      cases h
  refine ⟨ho, ?_⟩
  rw [openFile_of_fits ho, bind_eq] at h
  split at h
  · next id d₁ hbacking =>
    cases hmade : made path (.ofOptions split o) (d₁.content id) with
    | ok s =>
      rw [openContent_ok hmade] at h
      obtain ⟨hD, rfl⟩ := Prod.mk.inj h
      exact ⟨id, d₁, s, hbacking, hmade, (Except.ok.inj hD).symm, rfl⟩
    | error e =>
      rw [openContent_error hmade] at h
      cases h
  · cases h

/-- A store that is opened in a file keeps no more than what the file tells. -/
theorem openFile_recorded {d' : Disk} (h : openFile split path o d = (.ok D, d')) :
    ∃ (id : FileId) (s : FileStore), D = .file id { s with file := .empty } ∧
      d'.content id = s.file ∧ d'.lookup? path = some id ∧ s.Recorded ∧
      s.header = .ofOptions split o := by
  obtain ⟨ho, id, d₁, s, hbacking, hmade, rfl, rfl⟩ := openFile_made h
  obtain ⟨hrecorded, hheader⟩ := made_recorded (Header.ofOptions_stored ho split) hmade
  have hlookup : d₁.lookup? path = some id := (Disk.openBacking_ends o path d).of_ok hbacking
  exact ⟨id, s, rfl, Disk.content_setContent .., hlookup, hrecorded, hheader⟩

/-- Where no file is, a new one is made into a store. -/
theorem openFile_new (ho : o.Fits) (hmake : o.createIfMissing = true)
    (hname : (Path.name? path).isSome) (hmissing : d.lookup? path = none) (split : Bool) :
    ∃ id s d', openFile split path o d = (.ok (.file id { s with file := .empty }), d') ∧
      d'.content id = s.file ∧ d'.lookup? path = some id ∧
      FileStore.create path (.ofOptions split o) .empty = .ok s := by
  obtain ⟨d₁, hbacking, hlookup, hempty⟩ := Disk.openBacking_missing hmake hname hmissing
  obtain ⟨s, hs, -⟩ := FileStore.create_valid (Header.ofOptions_stored ho split).toFits path .empty
  have hmade : made path (.ofOptions split o) (d₁.content d.fresh) = .ok s := by
    rw [made, hempty, if_pos size_empty]
    exact hs
  refine ⟨d.fresh, s, d₁.setContent d.fresh s.file, ?_, Disk.content_setContent .., hlookup, hs⟩
  rw [openFile_of_fits ho, bind_eq, hbacking]
  exact openContent_ok hmade

theorem made_of_recorded (hs : s.Recorded) (wanted : Header) :
    made path wanted s.file = FileStore.load path wanted s.file := by
  have hle := File.le_size_of_window hs.header_written s.header.length_encode
    s.header.encodedLength_pos
  have hpos := s.header.encodedLength_pos
  rw [made, if_neg (by omega)]

/-- A file is opened again with the dimensions that it has. -/
theorem openFile_again (ho : o.Fits) (hexists : o.errorIfExists = false)
    (hlookup : d.lookup? path = some id) (hs : s.Recorded) (hfile : d.content id = s.file)
    (hheader : s.header = .ofOptions split o) :
    ∃ s', openFile split path o d =
        (.ok (.file id { s' with file := .empty }), d.setContent id s'.file) ∧
      s'.Recorded ∧ s.Same s' := by
  obtain ⟨s', hload, hrecorded, hsame⟩ := hs.load_self path
  refine ⟨s', ?_, hrecorded, hsame⟩
  rw [openFile_of_fits ho, bind_eq, Disk.openBacking_found hexists hlookup]
  refine openContent_ok ?_
  rw [hfile, made_of_recorded hs, ← hheader]
  exact hload

/-- A file is not opened with other dimensions. -/
theorem openFile_other (ho : o.Fits) (hexists : o.errorIfExists = false)
    (hlookup : d.lookup? path = some id) (hs : s.Recorded) (hfile : d.content id = s.file)
    (hheader : s.header ≠ .ofOptions split o) :
    ∃ e, openFile split path o d = (.error e, d) ∧ IsMismatch e := by
  obtain ⟨e, hload, hmismatch⟩ := hs.load_other (Header.ofOptions_stored ho split) hheader path
  refine ⟨e, ?_, hmismatch⟩
  rw [openFile_of_fits ho, bind_eq, Disk.openBacking_found hexists hlookup]
  refine openContent_error ?_
  rw [hfile, made_of_recorded hs]
  exact hload

/-! ### Taking a store out of the directory and putting it back -/

theorem attach_detach (D : Device) (d : Disk) :
    (D.detach d).1.attach (D.detach d).2 = D := by
  cases D with
  | memory m => rfl
  | file id s =>
    rw [detach, attach]
    dsimp only
    rw [Disk.content_setContent]

theorem dispatch_file {α : Type} (onMemory : Action MemoryStore α) (onFile : Action FileStore α)
    (id : FileId) (s : FileStore) :
    dispatch onMemory onFile (.file id s) = ((onFile s).1, .file id (onFile s).2) := rfl

/-- An action on the store in a file, and what is made of its answer. -/
theorem bind_file {α β : Type} {onMemory : Action MemoryStore α} {onFile : Action FileStore α}
    (f : α → β) (id : FileId) (s : FileStore) :
    (dispatch onMemory onFile >>= fun a => pure (f a)) (.file id s) =
      (((onFile >>= fun a => pure (f a)) s).1,
        .file id ((onFile >>= fun a => pure (f a)) s).2) := by
  rw [bind_eq, bind_eq, dispatch_file]
  cases onFile s with
  | mk r s' => cases r <;> rfl

/-- What is asked of a store in a file is asked of what it is there. -/
theorem run_file (c : StoreCall) (id : FileId) (s : FileStore) :
    c.run (.file id s : Device) = ((c.run s).1, .file id (c.run s).2) := by
  cases c with
  | allocate kind data => exact bind_file StoreAnswer.block id s
  | write kind n data => exact bind_file (fun _ => StoreAnswer.done) id s
  | free kind n => exact bind_file (fun _ => StoreAnswer.done) id s
  | setReserve data => exact bind_file (fun _ => StoreAnswer.done) id s
  | sync => exact bind_file (fun _ => StoreAnswer.done) id s
  | isAllocated kind n => rfl
  | allocatedCount kind => rfl
  | read kind n =>
    rw [StoreCall.run, StoreCall.run, bind_eq, bind_eq, get_eq, get_eq]
    dsimp only
    rw [bind_eq, bind_eq, lift_eq, lift_eq,
      show Store.read (Device.file id s) kind n = Store.read s kind n from rfl]
    cases Store.read s kind n <;> rfl
  | reserve =>
    rw [StoreCall.run, StoreCall.run, bind_eq, bind_eq, get_eq, get_eq]
    dsimp only
    rw [bind_eq, bind_eq, lift_eq, lift_eq,
      show Store.reserve (Device.file id s) = Store.reserve s from rfl]
    cases Store.reserve s <;> rfl

theorem names_detach (D : Device) (d : Disk) : (D.detach d).2.names = d.names := by
  cases D <;> rfl

end Device

namespace Workspace

variable {κ ν : Type} {K : OrderedCodec κ} {V : Codec ν} {w : Workspace K V} {D : Device}

/-! ### The open store -/

/-- The open store with the content of its file. -/
def device? (w : Workspace K V) : Option Device := w.store?.map (Device.attach w.disk)

/-- The workspace after something was done with the open store. -/
def withDevice (w : Workspace K V) (D : Device) : Workspace K V :=
  ⟨(D.detach w.disk).2, some (D.detach w.disk).1, w.tree?⟩

theorem device?_withDevice (w : Workspace K V) (D : Device) : (w.withDevice D).device? = some D :=
  congrArg some (D.attach_detach w.disk)

theorem lookup?_withDevice (w : Workspace K V) (D : Device) (path : String) :
    (w.withDevice D).disk.lookup? path = w.disk.lookup? path := by
  rw [Disk.lookup?, Disk.lookup?, withDevice, D.names_detach]

/-- What is done with the store is done in the workspace. -/
theorem onStore_eq {α : Type} (h : w.device? = some D) (act : Action Device α) :
    onStore act w = ((act D).1.map some, w.withDevice (act D).2) := by
  obtain ⟨disk, store?, tree?⟩ := w
  obtain ⟨s, rfl, rfl⟩ := Option.map_eq_some_iff.1 h
  rfl

theorem openStore_eq (kind : DeviceKind) (path : String) (o : Options) (w : Workspace K V) :
    openStore kind path o w =
      match Device.openAs kind path o w.disk with
      | (.ok s, disk) => (.ok (), ⟨disk, some s, w.tree?⟩)
      | (.error e, disk) => (.error e, ⟨disk, none, w.tree?⟩) := by
  have hdisk : onDisk (Device.openAs kind path o) { w with store? := none } =
      ((Device.openAs kind path o w.disk).1,
        ⟨(Device.openAs kind path o w.disk).2, none, w.tree?⟩) := rfl
  rw [openStore, bind_eq]
  change (onDisk (Device.openAs kind path o) >>= _) { w with store? := none } = _
  rw [bind_eq, hdisk]
  cases Device.openAs kind path o w.disk with
  | mk r d => cases r <;> rfl

/-- A store that was opened in a file. -/
theorem openFile_of_openStore {split : Bool} {w₁ : Workspace K V}
    (h : openStore (.inFile split) path o w = (.ok (), w₁)) :
    ∃ D disk, Device.openFile split path o w.disk = (.ok D, disk) ∧
      w₁ = ⟨disk, some D, w.tree?⟩ := by
  rw [openStore_eq, Device.openAs_inFile] at h
  split at h
  · next D disk hrun => exact ⟨D, disk, hrun, (Prod.mk.inj h).2.symm⟩
  · cases h

theorem device?_of_file {id : FileId} {s : FileStore} {disk : Disk}
    (h : disk.content id = s.file) (tree? : Option (Tree Device K V)) :
    (⟨disk, some (.file id { s with file := .empty }), tree?⟩ : Workspace K V).device? =
      some (.file id s) := by
  change some (Device.file id { s with file := disk.content id }) = _
  rw [h]

/-- Where no file is, a store is opened in a new one. -/
theorem openStore_new (ho : o.Fits) (hmake : o.createIfMissing = true)
    (hname : (Path.name? path).isSome) (hmissing : w.disk.lookup? path = none) (split : Bool) :
    ∃ id s w₁, openStore (.inFile split) path o w = (.ok (), w₁) ∧
      w₁.device? = some (.file id s) ∧ w₁.disk.lookup? path = some id ∧
      FileStore.create path (.ofOptions split o) .empty = .ok s := by
  obtain ⟨id, s, d, hrun, hcontent, hlookup, hmade⟩ :=
    Device.openFile_new ho hmake hname hmissing split
  refine ⟨id, s, ⟨d, some (.file id { s with file := .empty }), w.tree?⟩, ?_,
    device?_of_file hcontent _, hlookup, hmade⟩
  rw [openStore_eq, Device.openAs_inFile, hrun]

/-- A store is opened again in its file. -/
theorem openStore_again {id : FileId} {s : FileStore} (ho : o.Fits)
    (hexists : o.errorIfExists = false) (hlookup : w.disk.lookup? path = some id)
    (hs : s.Recorded) (hfile : w.disk.content id = s.file)
    (hheader : s.header = .ofOptions split o) :
    ∃ s' w₁, openStore (.inFile split) path o w = (.ok (), w₁) ∧ w₁.tree? = w.tree? ∧
      w₁.device? = some (.file id s') ∧ w₁.disk.lookup? path = some id ∧ s'.Recorded ∧
      s.Same s' := by
  obtain ⟨s', hrun, hrecorded, hsame⟩ :=
    Device.openFile_again ho hexists hlookup hs hfile hheader
  refine ⟨s', ⟨w.disk.setContent id s'.file, some (.file id { s' with file := .empty }), w.tree?⟩,
    ?_, rfl, device?_of_file (Disk.content_setContent ..) _, hlookup, hrecorded, hsame⟩
  rw [openStore_eq, Device.openAs_inFile, hrun]

end Workspace

end PagedMap
