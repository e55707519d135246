/-
# Giving up a tree and opening it again

A tree in a file may be given up between any two calls, with or without saving it, and
opened again from the file, and nothing that is done or asked afterwards tells that it was
(`Workspace.resumed_alike`). When it is given up its descriptor is in the reserve: either
it was saved since it last changed, or it is saved then. From there and from the blocks
in the file the same tree is found again (`Workspace.resume_run`).

Key definitions: `Parting`, `Workspace.resume`, `TreeStep`, `Workspace.Thrives`,
`Workspace.Resumed`.
Key theorems: `Workspace.resume_run`, `Workspace.steps_resumed`, `Workspace.resumed_alike`.
-/
import PagedMap.Proofs.Tree.MirroredCalls
import PagedMap.Proofs.Workspace.Matched
import PagedMap.Proofs.Workspace.Stores

namespace PagedMap

/-- How a tree is given up: dropped as it is, saved and dropped, or closed. -/
inductive Parting where
  | drop
  | save
  | close

/-- What is done with a tree: it is called or saved, or given up and opened again. -/
inductive TreeStep (κ ν : Type) where
  | tell (c : TreeCall κ ν)
  | reopen (how : Parting)

/-- Whether the step is a call. -/
def TreeStep.isCall {κ ν : Type} : TreeStep κ ν → Bool
  | .tell (.change _) => true
  | _ => false

namespace Workspace

variable {κ ν : Type} {K : OrderedCodec κ} {V : Codec ν} {w w' w₀ w₁ : Workspace K V}
  {t u : Tree Device K V} {D : Device} {split : Bool} {o : Options} {path : String} {id : FileId}
  {h : Header}

/-! ### The open tree -/

/-- The workspace after something was done with the open tree. -/
def withTree (w : Workspace K V) (t : Tree Device K V) : Workspace K V :=
  ⟨(t.store.detach w.disk).2, w.store?, some { t with store := (t.store.detach w.disk).1 }⟩

theorem currentTree?_withTree (w : Workspace K V) (t : Tree Device K V) :
    (w.withTree t).currentTree? = some t := by
  change some (⟨(t.store.detach w.disk).1.attach (t.store.detach w.disk).2, t.descriptor,
    t.unsaved⟩ : Tree Device K V) = _
  rw [Device.attach_detach]

theorem lookup?_withTree (w : Workspace K V) (t : Tree Device K V) (path : String) :
    (w.withTree t).disk.lookup? path = w.disk.lookup? path := by
  rw [Disk.lookup?, Disk.lookup?, withTree, t.store.names_detach]

/-- What is done with the tree is done in the workspace. -/
theorem onTree_eq {α : Type} (ht : w.currentTree? = some t) (act : Action (Tree Device K V) α) :
    onTree act w = ((act t).1.map some, w.withTree (act t).2) := by
  obtain ⟨disk, store?, tree?⟩ := w
  obtain ⟨u, rfl, rfl⟩ := Option.map_eq_some_iff.1 ht
  rfl

theorem dropTree_eq (ht : w.currentTree? = some t) :
    dropTree w = (.ok (), ⟨(t.release.detach w.disk).2, w.store?, none⟩) := by
  obtain ⟨disk, store?, tree?⟩ := w
  obtain ⟨u, rfl, rfl⟩ := Option.map_eq_some_iff.1 ht
  rfl

theorem closeTree_eq (ht : w.currentTree? = some t) :
    closeTree w = (t.close.1.map some, ⟨(t.close.2.detach w.disk).2, w.store?, none⟩) := by
  obtain ⟨disk, store?, tree?⟩ := w
  obtain ⟨u, rfl, rfl⟩ := Option.map_eq_some_iff.1 ht
  rfl

/-- Where no tree is open, one is opened in the open store. -/
theorem openTree_eq (hnone : w.tree? = none) (hD : w.device? = some D) :
    openTree w = match Tree.ofStore K V D with
      | (.ok t, s) => (.ok (some ()), withTree ⟨(s.detach w.disk).2, none, none⟩ t)
      | (.error e, s) => (.error e, ⟨(s.detach w.disk).2, none, none⟩) := by
  obtain ⟨disk, store?, tree?⟩ := w
  obtain ⟨s, rfl, rfl⟩ := Option.map_eq_some_iff.1 hD
  obtain rfl : tree? = none := hnone
  have hdrop : dropTree (⟨disk, some s, none⟩ : Workspace K V) = (.ok (), ⟨disk, some s, none⟩) :=
    rfl
  rw [openTree, bind_eq, get_eq]
  dsimp only
  rw [bind_eq, hdrop]
  dsimp only
  rw [bind_eq, get_eq]
  dsimp only [currentStore?]
  cases Tree.ofStore K V (s.attach disk) with
  | mk r s' => cases r <;> rfl

/-! ### Steps -/

/-- Calls the open tree or saves it. -/
def tell (c : TreeCall κ ν) : Action (Workspace K V) (Option ν) := do
  let answer ← onTree c.run
  return answer.join

/-- Gives up the open tree. -/
def part : Parting → Action (Workspace K V) Unit
  | .drop => dropTree
  | .save => do
    let _ ← onTree Tree.save
    dropTree
  | .close => do
    let _ ← closeTree

/-- Gives up the open tree, and opens its file and the tree there again. -/
def resume (kind : DeviceKind) (path : String) (o : Options) (how : Parting) :
    Action (Workspace K V) Unit := do
  part how
  openStore kind path o
  let _ ← openTree

/-- Does a step with the open tree, which is opened again by an action of its own. -/
def treeStep (reopen : Parting → Action (Workspace K V) Unit) :
    TreeStep κ ν → Action (Workspace K V) (Option ν)
  | .tell c => tell c
  | .reopen how => do
    reopen how
    return none

/-- Does a step with a tree that stays open throughout. -/
def stayStep : TreeStep κ ν → Action (Workspace K V) (Option ν) := treeStep fun _ => pure ()

/-- Every call succeeds in a tree that stays open throughout, and before each step it has no
more entries than a signed word can tell. -/
def Thrives : List (TreeStep κ ν) → Workspace K V → Prop
  | [], _ => True
  | s :: steps, w =>
    (∀ t ∈ w.currentTree?, t.length ≤ maxInt32) ∧
      (s.isCall = true → (stayStep s w).1.isOk = true) ∧ Thrives steps (stayStep s w).2

instance decidableThrives : ∀ (steps : List (TreeStep κ ν)) (w : Workspace K V),
    Decidable (Thrives steps w)
  | [], _ => inferInstanceAs (Decidable True)
  | s :: steps, w =>
    have := decidableThrives steps (stayStep s w).2
    inferInstanceAs (Decidable (_ ∧ _ ∧ _))

theorem tell_eq (ht : w.currentTree? = some t) (c : TreeCall κ ν) :
    tell c w = ((c.run t).1, w.withTree (c.run t).2) := by
  rw [tell, bind_eq, onTree_eq ht]
  cases c.run t with
  | mk r t' => cases r <;> rfl

/-- The trees that are open are in paired stores, the first of which is in the file that a
path leads to. -/
def Beside (path : String) (h : Header) (w w' : Workspace K V) : Prop :=
  ∃ id t u, w.currentTree? = some t ∧ w.disk.lookup? path = some id ∧ w'.currentTree? = some u ∧
    t.Mirrored (fun _ => Device.Paired id h none) u

/-- What is done with two such trees is done alike. -/
theorem tell_agrees (c : TreeCall κ ν) :
    Agrees (Beside (K := K) (V := V) path h) (tell c) (tell c) := by
  rintro w w' ⟨id, t, u, ht, hlookup, hu, hm⟩
  obtain ⟨hr, hm'⟩ := Tree.run_agrees (Device.paired_mirrors id h) c t u hm
  rw [tell_eq ht, tell_eq hu]
  exact ⟨hr, id, _, _, currentTree?_withTree .., (lookup?_withTree ..).trans hlookup,
    currentTree?_withTree .., hm'⟩

theorem Beside.same (hw : w.Beside path h w') :
    ∃ t u, w.currentTree? = some t ∧ w'.currentTree? = some u ∧ t.Same u := by
  obtain ⟨id, t, u, ht, -, hu, hm⟩ := hw
  exact ⟨t, u, ht, hu, (hm.twin (Device.paired_mirrors id h).loose).same⟩

/-! ### Giving up a tree and opening it again -/

/-- No tree is open, and the file that the path leads to has what the store has. -/
structure Left (path : String) (id : FileId) (f : FileStore) (w : Workspace K V) : Prop where
  tree_none : w.tree? = none
  content_eq : w.disk.content id = f.file
  lookup_eq : w.disk.lookup? path = some id

theorem left_detach {d? : Option Descriptor} {s : Device} (hlookup : w.disk.lookup? path = some id)
    (hp : Device.Paired id h d? D s) (store? : Option Device) :
    ∃ f, D = .file id f ∧
      (⟨(D.detach w.disk).2, store?, none⟩ : Workspace K V).Left path id f := by
  obtain ⟨⟨f, rfl, -⟩, -⟩ := hp
  exact ⟨f, rfl, rfl, Disk.content_setContent .., hlookup⟩

/-- The tree that is given up leaves a store in its file that tells its descriptor. -/
theorem part_run (ht : w.currentTree? = some t) (hlookup : w.disk.lookup? path = some id)
    (hm : t.Mirrored (Device.Paired id h) u) {bs : Bytes} (hencode : t.descriptor.encode = .ok bs)
    (how : Parting) :
    ∃ (f : FileStore) (w₁ : Workspace K V), part how w = (.ok (), w₁) ∧ w₁.Left path id f ∧
      Device.Paired id h (some t.descriptor) (.file id f) u.store := by
  obtain ⟨s₁, hsave, hsaved⟩ := Tree.save_paired hm hencode
  cases how with
  | drop =>
    have hp := Tree.release_paired hm hencode
    obtain ⟨f, hf, hleft⟩ := left_detach hlookup hp w.store?
    exact ⟨f, _, dropTree_eq ht, hleft, hf ▸ hp⟩
  | save =>
    obtain ⟨f, rfl, hleft⟩ := left_detach (w := w.withTree ⟨s₁, t.descriptor, false⟩)
      ((lookup?_withTree ..).trans hlookup) hsaved w.store?
    refine ⟨f, _, ?_, hleft, hsaved⟩
    rw [part, bind_eq, onTree_eq ht, hsave]
    exact dropTree_eq (currentTree?_withTree ..)
  | close =>
    obtain ⟨f, rfl, hleft⟩ := left_detach hlookup hsaved w.store?
    have hclose : t.close = (.ok (), .file id f) := by
      rw [Tree.close, hsave]
      rfl
    refine ⟨f, _, ?_, hleft, hsaved⟩
    rw [part, bind_eq, closeTree_eq ht, hclose]
    rfl

/-- The same tree is found again where it was left. -/
theorem reopen_run (ho : o.Fits) (hexists : o.errorIfExists = false) {f : FileStore} {s : Device}
    {d : Descriptor} (hleft : w.Left path id f)
    (hp : Device.Paired id (.ofOptions split o) (some d) (.file id f) s)
    (hdecode : ∀ bs rest, d.encode = .ok bs → Descriptor.decode (bs ++ rest) = .ok (some d))
    (hroot : Store.isAllocated s (if d.leafLevel < 0 then .leaf else .index) d.root = true) :
    ∃ (f' : FileStore) (w₁ w₂ : Workspace K V),
      openStore (.inFile split) path o w = (.ok (), w₁) ∧ openTree w₁ = (.ok (some ()), w₂) ∧
      w₂.currentTree? = some ⟨.file id f', d, false⟩ ∧ w₂.disk.lookup? path = some id ∧
      Device.Paired id (.ofOptions split o) (some d) (.file id f') s := by
  obtain ⟨_, hf, hrecorded, hheader⟩ := hp.1
  obtain ⟨-, rfl⟩ := Device.file.inj hf
  obtain ⟨f', w₁, hopen, hnone, hdevice, hlookup, hrecorded', hsame⟩ := openStore_again ho hexists
    hleft.lookup_eq hrecorded hleft.content_eq hheader
  have hp' := hp.reloaded hsame hrecorded'
  rw [← (Device.paired_mirrors id _).isAllocated_eq hp'] at hroot
  have hrun := openTree_eq (hnone.trans hleft.tree_none) hdevice
  rw [Tree.ofStore_told hp'.exact.1 (hp'.matches.tells d rfl) hdecode hroot] at hrun
  exact ⟨f', w₁, _, hopen, hrun, currentTree?_withTree .., (lookup?_withTree ..).trans hlookup, hp'⟩

section Lawful

variable [LinearOrder κ] [K.Lawful] [V.Lawful] {g : Regime K V} {R : Heap}
  {items : List (κ × ν)}

/-- The descriptor of a tree that is not too large is written and read back. -/
theorem descriptor_kept (hm : t.Mirrored (Device.Paired id h) u) (hstores : g.Stores items R t)
    (hlen : u.length ≤ maxInt32) :
    ∃ bs, t.descriptor.encode = .ok bs ∧
      ∀ rest, Descriptor.decode (bs ++ rest) = .ok (some t.descriptor) := by
  have hexact := hm.stores.exact.1
  have hroot := hexact.lt_maxBlocks hstores.root_allocated
  have hmax := hexact.valid.shape_valid.maxBlocks_le
    (if t.descriptor.leafLevel < 0 then .leaf else .index)
  refine hstores.descriptor_kept (by omega) ?_
  rw [← hstores.length_eq, (hm.twin (Device.paired_mirrors id h)).length_eq]
  exact hlen

/-- The open trees are the same, and the first of them is in its file, which tells all of it
once the tree is given up. -/
def Resumed (path : String) (h : Header) (g : Regime K V) (R : Heap) (w w' : Workspace K V) :
    Prop :=
  ∃ id t u items, w.currentTree? = some t ∧ w.disk.lookup? path = some id ∧
    w'.currentTree? = some u ∧ t.Mirrored (Device.Paired id h) u ∧ g.Stores items R t

omit [K.Lawful] [V.Lawful] in
theorem Resumed.beside (hw : w.Resumed path h g R w') : w.Beside path h w' := by
  obtain ⟨id, t, u, items, ht, hlookup, hu, hm, -⟩ := hw
  exact ⟨id, t, u, ht, hlookup, hu, hm.loose (Device.paired_mirrors id h)⟩

/-- A tree that is given up and opened again is as it was. -/
theorem resume_run (ho : o.Fits) (hexists : o.errorIfExists = false)
    (hw : w.Resumed path (.ofOptions split o) g R w')
    (hlen : ∀ u ∈ w'.currentTree?, u.length ≤ maxInt32) (how : Parting) :
    ∃ w₁, resume (.inFile split) path o how w = (.ok (), w₁) ∧
      w₁.Resumed path (.ofOptions split o) g R w' := by
  obtain ⟨id, t, u, items, ht, hlookup, hu, hm, hstores⟩ := hw
  obtain ⟨bs, hencode, hdecode⟩ := descriptor_kept hm hstores (hlen u hu)
  obtain ⟨f, w₁, hpart, hleft, hp⟩ := part_run ht hlookup hm hencode how
  have hroot := hstores.root_allocated
  rw [(Device.paired_mirrors id _).isAllocated_eq hm.stores] at hroot
  obtain ⟨f', w₂, w₃, hopen, htree, ht', hlookup', hp'⟩ := reopen_run ho hexists hleft hp
    (fun bs' rest hbs => by
      obtain rfl := Except.ok.inj (hencode.symm.trans hbs)
      exact hdecode rest) hroot
  refine ⟨w₃, ?_, id, _, u, items, ht', hlookup', hu, ⟨hm.descriptor_eq, hp'⟩,
    hstores.paired hm.stores hp' false⟩
  rw [resume, bind_eq, hpart]
  dsimp only
  rw [bind_eq, hopen]
  dsimp only
  rw [bind_eq, htree]
  rfl

/-- What succeeds in a tree leaves items in it, and tells its descriptor unless it is unsaved. -/
theorem run_stores (hm : t.Mirrored (Device.Paired id h) u) (hstores : g.Stores items R t)
    (hdense : g.isDense = false) (hlen : u.length ≤ maxInt32) {c : TreeCall κ ν}
    (hc : (TreeStep.tell c).isCall = true → (c.run u).1.isOk = true) :
    (c.run t).2.Mirrored (Device.Paired id h) (c.run u).2 ∧
      ∃ items', g.Stores items' R (c.run t).2 := by
  have hmirrors := Device.paired_mirrors id h
  cases c with
  | save =>
    obtain ⟨bs, hencode, -⟩ := descriptor_kept hm hstores hlen
    obtain ⟨s₁, hsave, hp⟩ := Tree.save_paired hm hencode
    have hrun : TreeCall.run .save t = (.ok none, ⟨s₁, t.descriptor, false⟩) := by
      rw [TreeCall.run, bind_eq, hsave]
      rfl
    have hm' := Tree.run_mirrored hmirrors hm (congrArg Prod.fst hrun)
    rw [hrun] at hm' ⊢
    exact ⟨hm', items, hstores.paired hm.stores hp false⟩
  | change c =>
    obtain ⟨answer, hanswer⟩ := exists_of_isOk (hc rfl)
    rw [← (Tree.run_agrees hmirrors _ t u (hm.loose hmirrors)).1] at hanswer
    obtain ⟨items', -, hstores'⟩ :=
      (Regime.call_ends hdense hstores c).of_ok (Prod.ext hanswer rfl)
    exact ⟨Tree.run_mirrored hmirrors hm hanswer, items', hstores'⟩

/-- Every step keeps the trees the same, though in the second workspace none is given up. -/
theorem step_resumed (ho : o.Fits) (hexists : o.errorIfExists = false) (hdense : g.isDense = false)
    (hw : w.Resumed path (.ofOptions split o) g R w') {s : TreeStep κ ν}
    (hlen : ∀ u ∈ w'.currentTree?, u.length ≤ maxInt32)
    (hs : s.isCall = true → (stayStep s w').1.isOk = true) :
    (treeStep (resume (.inFile split) path o) s w).1 = (stayStep s w').1 ∧
      (treeStep (resume (.inFile split) path o) s w).2.Resumed path (.ofOptions split o) g R
        (stayStep s w').2 := by
  cases s with
  | tell c =>
    obtain ⟨hr, -⟩ := tell_agrees c w w' hw.beside
    obtain ⟨id, t, u, items, ht, hlookup, hu, hm, hstores⟩ := hw
    rw [show stayStep (.tell c) w' = _ from tell_eq hu c] at hs
    obtain ⟨hm', items', hstores'⟩ := run_stores hm hstores hdense (hlen u hu) hs
    refine ⟨hr, ?_⟩
    change (tell c w).2.Resumed _ _ _ _ (tell c w').2
    rw [tell_eq ht, tell_eq hu]
    exact ⟨id, _, _, items', currentTree?_withTree .., (lookup?_withTree ..).trans hlookup,
      currentTree?_withTree .., hm', hstores'⟩
  | reopen how =>
    obtain ⟨w₁, hresume, hw₁⟩ := resume_run ho hexists hw hlen how
    rw [treeStep, bind_eq, hresume]
    exact ⟨rfl, hw₁⟩

/-- So does every list of steps. -/
theorem steps_resumed (ho : o.Fits) (hexists : o.errorIfExists = false)
    (hdense : g.isDense = false) :
    ∀ {steps : List (TreeStep κ ν)} {w w' : Workspace K V},
      w.Resumed path (.ofOptions split o) g R w' → Thrives steps w' →
      (performAll (steps.map (treeStep (resume (.inFile split) path o))) w).1 =
          (performAll (steps.map stayStep) w').1 ∧
        (performAll (steps.map (treeStep (resume (.inFile split) path o))) w).2.Resumed path
          (.ofOptions split o) g R (performAll (steps.map stayStep) w').2
  | [], _, _, hw, _ => ⟨rfl, hw⟩
  | s :: steps, w, w', hw, ⟨hlen, hs, hrest⟩ => by
    obtain ⟨hr, hw₁⟩ := step_resumed ho hexists hdense hw hlen hs
    obtain ⟨hrs, hw₂⟩ := steps_resumed ho hexists hdense hw₁ hrest
    rw [List.map_cons, List.map_cons, performAll_cons, performAll_cons, hr, hrs]
    exact ⟨rfl, hw₂⟩

end Lawful

/-! ### A tree in a new file -/

/-- The reserve of the open store tells of no tree. -/
def Vacant (w : Workspace K V) : Prop := ∃ D, w.device? = some D ∧ IsBlank D

/-- No tree is open, and the open store is in the file that a path leads to. -/
def Ready (path : String) (h : Header) (w : Workspace K V) : Prop :=
  w.tree? = none ∧ ∃ id D, w.device? = some D ∧ w.disk.lookup? path = some id ∧
    Device.Paired id h none D D

theorem ready_of_openStore (hnone : w.tree? = none) (hmissing : w.disk.lookup? path = none)
    (hopen : openStore (.inFile split) path o w = (.ok (), w₀)) :
    w₀.Ready path (.ofOptions split o) := by
  obtain ⟨D, disk, hrun, rfl⟩ := openFile_of_openStore hopen
  obtain ⟨ho, id, d₁, f, hbacking, hmade, rfl, rfl⟩ := Device.openFile_made hrun
  have hlookup : d₁.lookup? path = some id := (Disk.openBacking_ends o path _).of_ok hbacking
  rw [(Disk.openBacking_empty hmissing).of_ok hbacking, Device.made,
    if_pos Device.size_empty] at hmade
  obtain ⟨hrecorded, hheader⟩ := FileStore.create_recorded (Header.ofOptions_stored ho split) hmade
  have hshows : (Device.file id f).Shows (.fresh split o) := Device.shows_of_create ho hmade
  refine ⟨hnone, id, .file id f, device?_of_file (Disk.content_setContent ..) _, hlookup,
    ⟨f, rfl, hrecorded, hheader⟩, _, hshows, _, ⟨rfl, rfl, ?_⟩, hshows⟩
  intro d hd
  cases hd

theorem Ready.ask (hw : w.Ready path h) (c : StoreCall) : (Workspace.ask c w).2.Ready path h := by
  obtain ⟨hnone, id, D, hD, hlookup, hp⟩ := hw
  obtain ⟨hfile, hexact, -, hmatches⟩ := Device.paired_iff.1 hp
  obtain ⟨-, hshows⟩ := Device.run_agrees c D D.ideal ⟨hexact, rfl⟩
  rw [Workspace.ask, onStore_eq hD]
  exact ⟨hnone, id, _, device?_withDevice .., (lookup?_withDevice ..).trans hlookup, hfile.run c,
    _, hshows, _, ⟨rfl, rfl, fun d hd => by cases hd⟩, hshows⟩

variable [LinearOrder κ] [K.Lawful] [V.Lawful]

omit [K.Lawful] [V.Lawful] in
/-- A tree that was opened in a store without one is the same as itself. -/
theorem Ready.resumed (hw : w.Ready path h) (hvacant : w.Vacant)
    (htree : openTree w = (.ok (some ()), w₁)) :
    ∃ g R, g.isDense = false ∧ w₁.Resumed path h g R w₁ := by
  obtain ⟨hnone, id, D, hD, hlookup, hp⟩ := hw
  obtain ⟨D', hD', hblank⟩ := hvacant
  obtain rfl : D = D' := Option.some.inj (hD.symm.trans hD')
  rw [openTree_eq hnone hD] at htree
  split at htree
  · next t s hopen =>
    obtain ⟨-, rfl⟩ := Prod.mk.inj htree
    obtain ⟨hm, rfl⟩ := Tree.ofStore_paired hp hblank hopen
    have hstores := Regime.ofStore_stores hp.exact.1.valid hblank hopen
    refine ⟨_, _, rfl, id, t, t, [], currentTree?_withTree .., ?_, currentTree?_withTree .., hm,
      hstores⟩
    rw [lookup?_withTree, Disk.lookup?, t.store.names_detach]
    exact hlookup
  · cases htree

/-- **Giving up a tree and opening it again is not seen.** -/
theorem resumed_alike (hnone : w.tree? = none) (hmissing : w.disk.lookup? path = none)
    (hopen : openStore (.inFile split) path o w = (.ok (), w₀)) (hexists : o.errorIfExists = false)
    (calls : List StoreCall) (hvacant : (performAll (calls.map ask) w₀).2.Vacant)
    (htree : openTree (performAll (calls.map ask) w₀).2 = (.ok (some ()), w₁))
    (steps : List (TreeStep κ ν)) (hsteps : Thrives steps w₁) (later : List (TreeCall κ ν)) :
    let resumed := performAll (steps.map (treeStep (resume (.inFile split) path o))) w₁
    let kept := performAll (steps.map stayStep) w₁
    resumed.1 = kept.1 ∧
      (performAll (later.map tell) resumed.2).1 = (performAll (later.map tell) kept.2).1 ∧
      ∃ t u, (performAll (later.map tell) resumed.2).2.currentTree? = some t ∧
        (performAll (later.map tell) kept.2).2.currentTree? = some u ∧ t.Same u := by
  intro resumed kept
  have hready : (performAll (calls.map ask) w₀).2.Ready path (.ofOptions split o) := by
    refine performAll_induct (ready_of_openStore hnone hmissing hopen) fun act hact w hw => ?_
    obtain ⟨c, -, rfl⟩ := List.mem_map.1 hact
    exact hw.ask c
  obtain ⟨g, R, hdense, hw⟩ := hready.resumed hvacant htree
  have ho : o.Fits := by
    obtain ⟨D, disk, hrun, -⟩ := openFile_of_openStore hopen
    exact (Device.openFile_made hrun).1
  obtain ⟨hr, hresumed⟩ := steps_resumed ho hexists hdense hw hsteps
  obtain ⟨hrs, hbeside⟩ := agrees_performAll tell_agrees later _ _ hresumed.beside
  exact ⟨hr, hrs, hbeside.same⟩

/-- A store in a new file. -/
def smallFile : Workspace KeyKind.word32.codec (ValueKind.key .word32).codec :=
  (openStore (.inFile false) "a" smallOptions (.empty ..)).2

/-- A tree in a store in which something else has the first block. -/
def smallTree : Workspace KeyKind.word32.codec (ValueKind.key .word32).codec :=
  (openTree (performAll ([StoreCall.allocate .leaf [7]].map ask) smallFile).2).2

/-- Puts an entry into the tree. -/
def smallPut (key value : UInt32) : TreeCall KeyKind.word32.Item (ValueKind.key .word32).Item :=
  .change (.insert key value)

/-- Entries are put into the tree, which is given up in every way. -/
def smallSteps : List (TreeStep KeyKind.word32.Item (ValueKind.key .word32).Item) :=
  [.tell (smallPut 1 10), .reopen .drop, .reopen .save, .tell (smallPut 2 20), .reopen .close]

/-- The steps and what they leave. -/
def smallResumed : List (Except Error (Option (ValueKind.key .word32).Item)) ×
    Workspace KeyKind.word32.codec (ValueKind.key .word32).codec :=
  performAll (smallSteps.map (treeStep (resume (.inFile false) "a" smallOptions))) smallTree

/-- What comes of the entries, and of one that is put in afterwards. -/
theorem resumed_alike_small :
    smallResumed.1.map Except.isOk = [true, true, true, true, true] ∧
      ∃ t, (performAll ([smallPut 3 30].map tell) smallResumed.2).2.currentTree? = some t ∧
        t.length = 3 ∧ Store.allocatedCount t.store .leaf = 2 := by
  have hfound : (openStore (.inFile false) "a" smallOptions
        (.empty KeyKind.word32.codec (ValueKind.key .word32).codec)).1.toOption = some () ∧
      ((performAll ([StoreCall.allocate .leaf [7]].map ask) smallFile).2.device?.bind fun D =>
        (Store.reserve D).toOption.bind fun bs => (Descriptor.decode bs).toOption) = some none ∧
      (openTree (performAll ([StoreCall.allocate .leaf [7]].map ask) smallFile).2).1.toOption =
        some (some ()) ∧
      Thrives smallSteps smallTree ∧
      (performAll (smallSteps.map stayStep) smallTree).1.map Except.isOk =
        [true, true, true, true, true] ∧
      (performAll ([smallPut 3 30].map tell)
        (performAll (smallSteps.map stayStep) smallTree).2).2.currentTree?.map (fun u =>
          (u.length, Store.allocatedCount u.store .leaf)) = some (3, 2) := by decide +kernel
  obtain ⟨hopen, hreserve, htree, hthrives, hanswers, hkept⟩ := hfound
  have hvacant : (performAll ([StoreCall.allocate .leaf [7]].map ask) smallFile).2.Vacant := by
    obtain ⟨D, hD, h⟩ := Option.bind_eq_some_iff.1 hreserve
    obtain ⟨bs, hbs, h⟩ := Option.bind_eq_some_iff.1 h
    have hblank : IsBlank D := ⟨bs, eq_ok_of_toOption hbs, eq_ok_of_toOption h⟩
    exact Exists.intro D (And.intro hD hblank)
  have hopen : openStore (.inFile false) "a" smallOptions (.empty ..) = (.ok (), smallFile) :=
    eq_of_toOption_fst hopen
  have htree : openTree (performAll ([StoreCall.allocate .leaf [7]].map ask) smallFile).2 =
      (.ok (some ()), smallTree) := eq_of_toOption_fst htree
  obtain ⟨hsame, -, t, u, ht, hu, htu⟩ := resumed_alike rfl rfl hopen rfl _ hvacant htree smallSteps
    hthrives [smallPut 3 30]
  rw [hu] at hkept
  obtain ⟨hlength, hcount⟩ := Prod.mk.inj (Option.some.inj hkept)
  exact ⟨(congrArg (List.map Except.isOk) hsame).trans hanswers, t, ht,
    htu.length_eq.trans hlength, (htu.allocatedCount_eq _).trans hcount⟩

end Workspace

end PagedMap
