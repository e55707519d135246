/-
# Which files are opened again

Whatever is asked of a store in a file, its file goes on telling with which dimensions it
was made. So it is opened again with these and with no others, as a file of the kind
that it is and of no other, and opening it changes no file (`Workspace.reopen_ends`).

Key definitions: `Options.SameGeometry`, `Workspace.Holds`.
Key theorems: `Workspace.Holds.ask`, `Workspace.reopen_ends`.
-/
import PagedMap.Proofs.Codec.Kinds
import PagedMap.Proofs.Workspace.Opening

namespace PagedMap

/-- The dimensions that a plain or split file is made with are the same, and so is its kind. -/
structure Options.SameGeometry (split split' : Bool) (o o' : Options) : Prop where
  kind_eq : split' = split
  blockSize_eq : o'.blockSize = o.blockSize
  maxBlocks_eq : o'.maxBlocks = o.maxBlocks
  reserveSize_eq : o'.reserveSize = o.reserveSize
  region_eq : split = true →
    o'.regionBlockSize = o.regionBlockSize ∧ o'.regionMaxBlocks = o.regionMaxBlocks

/-- The header of a file tells its kind and its dimensions. -/
theorem Header.ofOptions_inj {split split' : Bool} {o o' : Options} :
    ofOptions split o = ofOptions split' o' ↔ Options.SameGeometry split split' o o' := by
  rw [ofOptions, ofOptions, Header.mk.injEq]
  constructor
  · rintro ⟨-, hblock, hmax, hreserve, hregion⟩
    have hkind := congrArg Option.isSome hregion
    cases split <;> cases split' <;> try cases hkind
    · exact ⟨rfl, hblock.symm, hmax.symm, hreserve.symm, fun h => by cases h⟩
    · obtain ⟨hrblock, hrmax⟩ := Region.mk.inj (Option.some.inj hregion)
      exact ⟨rfl, hblock.symm, hmax.symm, hreserve.symm, fun _ => ⟨hrblock.symm, hrmax.symm⟩⟩
  · rintro ⟨rfl, hblock, hmax, hreserve, hregion⟩
    refine ⟨rfl, hblock.symm, hmax.symm, hreserve.symm, ?_⟩
    cases split' with
    | false => rfl
    | true =>
      obtain ⟨hrblock, hrmax⟩ := hregion rfl
      rw [hrblock, hrmax]

namespace Workspace

variable {κ ν : Type} {K : OrderedCodec κ} {V : Codec ν} {w w₁ : Workspace K V} {path : String}
  {split split' : Bool} {o o' : Options} {h : Header}

/-- The open store is in the file that a path leads to, and the file tells all of it. -/
def Holds (path : String) (h : Header) (w : Workspace K V) : Prop :=
  ∃ (id : FileId) (s : FileStore), w.device? = some (.file id s) ∧ w.disk.lookup? path = some id ∧
    s.Recorded ∧ s.header = h

/-- Asks the open store. -/
def ask (c : StoreCall) : Action (Workspace K V) (Option StoreAnswer) := onStore c.run

/-- A store whose file tells all of it is still one after whatever was asked. -/
theorem Holds.ask (hw : w.Holds path h) (c : StoreCall) :
    (Workspace.ask c w).2.Holds path h := by
  obtain ⟨id, s, hdevice, hlookup, hrecorded, hheader⟩ := hw
  have hcontinues := hrecorded.run c
  rw [Workspace.ask, onStore_eq hdevice, Device.run_file]
  exact ⟨id, (c.run s).2, device?_withDevice .., (lookup?_withDevice ..).trans hlookup,
    hcontinues.1, hcontinues.2.trans hheader⟩

theorem content_of_device? {id : FileId} {s : FileStore} (h : w.device? = some (.file id s)) :
    w.disk.content id = s.file := by
  obtain ⟨disk, store?, tree?⟩ := w
  obtain ⟨D, rfl, hD⟩ := Option.map_eq_some_iff.1 h
  cases D with
  | memory m => cases hD
  | file id' s' =>
    obtain ⟨rfl, rfl⟩ := Device.file.inj hD
    rfl

/-- A store that was opened in a file is in it. -/
theorem holds_of_openStore (hopen : openStore (.inFile split) path o w = (.ok (), w₁)) :
    w₁.Holds path (.ofOptions split o) := by
  obtain ⟨D, disk, hrun, rfl⟩ := openFile_of_openStore hopen
  obtain ⟨id, s, rfl, hcontent, hlookup, hrecorded, hheader⟩ := Device.openFile_recorded hrun
  exact ⟨id, s, device?_of_file hcontent _, hlookup, hrecorded, hheader⟩

/-- **A file is opened again with its own kind and dimensions only.** -/
theorem reopen_ends (hopen : openStore (.inFile split) path o w = (.ok (), w₁))
    (calls : List StoreCall) (ho' : o'.validate = .ok ()) (hexists : o'.errorIfExists = false) :
    Ends (openStore (.inFile split') path o') (performAll (calls.map ask) w₁).2
      (fun e w₂ => IsMismatch e ∧ ¬ Options.SameGeometry split split' o o' ∧
        (performAll (calls.map ask) w₁).2.disk.Same w₂.disk)
      (fun _ w₂ => Options.SameGeometry split split' o o' ∧
        (performAll (calls.map ask) w₁).2.disk.Same w₂.disk) := by
  have hholds : (performAll (calls.map ask) w₁).2.Holds path (.ofOptions split o) := by
    refine performAll_induct (holds_of_openStore hopen) fun act hact w hw => ?_
    obtain ⟨c, -, rfl⟩ := List.mem_map.1 hact
    exact hw.ask c
  generalize (performAll (calls.map ask) w₁).2 = w at hholds ⊢
  obtain ⟨id, s, hdevice, hlookup, hrecorded, hheader⟩ := hholds
  have hfits := Options.validate_eq.1 ho'
  have hcontent := content_of_device? hdevice
  rw [Ends, openStore_eq, Device.openAs_inFile]
  by_cases hsame : s.header = .ofOptions split' o'
  · obtain ⟨s', hrun, -, hs'⟩ :=
      Device.openFile_again hfits hexists hlookup hrecorded hcontent hsame
    rw [hrun]
    exact ⟨Header.ofOptions_inj.1 (hheader.symm.trans hsame),
      Disk.same_setContent (hcontent.trans hs'.file_eq.symm)⟩
  · obtain ⟨e, hrun, hmismatch⟩ :=
      Device.openFile_other hfits hexists hlookup hrecorded hcontent hsame
    rw [hrun]
    exact ⟨hmismatch, fun hgeometry => hsame (hheader.trans (Header.ofOptions_inj.2 hgeometry)),
      Disk.Same.refl _⟩

/-- Options with small dimensions. -/
def smallOptions : Options :=
  { blockSize := 32, maxBlocks := 64, regionBlockSize := 32, reserveSize := 20 }

/-- A plain file with some blocks is opened again whatever the region would be, and not with
room for one block more. -/
theorem reopen_ends_small :
    let calls : List StoreCall := [.allocate .leaf [1, 2], .allocate .index [3], .free .leaf 0]
    ∃ w : Workspace word32 word32.toCodec,
      openStore (.inFile false) "a" smallOptions (.empty ..) = (.ok (), w) ∧
      (openStore (.inFile false) "a" { smallOptions with regionMaxBlocks := 7 }
        (performAll (calls.map ask) w).2).1 = .ok () ∧
      ∃ e, (openStore (.inFile false) "a" { smallOptions with maxBlocks := 65 }
        (performAll (calls.map ask) w).2).1 = .error e ∧ IsMismatch e := by
  intro calls
  have hname : (Path.name? "a").isSome = true := rfl
  obtain ⟨id, s, w, hopen, -⟩ := openStore_new (w := .empty word32 word32.toCodec)
    (Options.validate_eq.1 (rfl : smallOptions.validate = .ok ())) rfl hname rfl false
  have hsame : Ends (openStore (.inFile false) "a" { smallOptions with regionMaxBlocks := 7 })
    (performAll (calls.map ask) w).2 _ _ := reopen_ends hopen calls rfl rfl
  have hother : Ends (openStore (.inFile false) "a" { smallOptions with maxBlocks := 65 })
    (performAll (calls.map ask) w).2 _ _ := reopen_ends hopen calls rfl rfl
  refine ⟨w, hopen, ?_, ?_⟩
  · rw [Ends] at hsame
    split at hsame
    · next hrun => rw [hrun]
    · exact absurd ⟨rfl, rfl, rfl, rfl, fun h => by cases h⟩ hsame.2.1
  · rw [Ends] at hother
    split at hother
    · exact absurd hother.1.maxBlocks_eq (by decide)
    · next e _ hrun =>
      rw [hrun]
      exact ⟨e, rfl, hother.1⟩

end Workspace

end PagedMap
