/-
# Workspaces

A workspace is a directory with at most one open store and at most one open
tree. Opening a store gives up the one before; opening a tree takes the store
over and gives up the tree before, which is saved if need be. Every operation
on a store or tree in a file works on the content that the file has then.

Key definitions: `Workspace`, `Workspace.openStore`, `Workspace.openTree`,
`Workspace.onStore`, `Workspace.onTree`, `Workspace.onDisk`.
-/
import PagedMap.Store.Device
import PagedMap.Tree.Basic

namespace PagedMap

/-- A directory, an open store and an open tree. -/
structure Workspace {κ ν : Type} (K : OrderedCodec κ) (V : Codec ν) where
  disk : Disk
  store? : Option Device
  tree? : Option (Tree Device K V)

namespace Workspace

variable {κ ν : Type} {K : OrderedCodec κ} {V : Codec ν}

/-- An empty directory, and nothing open. -/
def empty (K : OrderedCodec κ) (V : Codec ν) : Workspace K V := ⟨.empty, none, none⟩

/-- Does something with the directory. -/
def onDisk {α : Type} (act : Action Disk α) : Action (Workspace K V) α := fun w =>
  match w with
  | ⟨disk, store?, tree?⟩ =>
    let (r, disk) := act disk
    (r, ⟨disk, store?, tree?⟩)

/-- Opens a store. The one before is given up even if this fails. -/
def openStore (kind : DeviceKind) (path : String) (o : Options) :
    Action (Workspace K V) Unit := do
  modify fun w => { w with store? := none }
  let s ← onDisk (Device.openAs kind path o)
  modify fun w => { w with store? := some s }

/-- Gives up the open store. -/
def closeStore : Action (Workspace K V) Unit :=
  modify fun w => { w with store? := none }

/-- Does something with the open store; `none` if there is none. -/
def onStore {α : Type} (act : Action Device α) : Action (Workspace K V) (Option α) := fun w =>
  match w with
  | ⟨disk, some s, tree?⟩ =>
    let (r, s) := act (s.attach disk)
    let (s, disk) := s.detach disk
    (r.map some, ⟨disk, some s, tree?⟩)
  | w => (.ok none, w)

/-- A tree whose store has the content of its file. -/
def attachTree (disk : Disk) (t : Tree Device K V) : Tree Device K V :=
  { t with store := t.store.attach disk }

/-- Does something with the open tree; `none` if there is none. -/
def onTree {α : Type} (act : Action (Tree Device K V) α) : Action (Workspace K V) (Option α) :=
  fun w =>
    match w with
    | ⟨disk, store?, some t⟩ =>
      let (r, t) := act (attachTree disk t)
      let (s, disk) := t.store.detach disk
      (r.map some, ⟨disk, store?, some { t with store := s }⟩)
    | w => (.ok none, w)

/-- The open tree. -/
def currentTree? (w : Workspace K V) : Option (Tree Device K V) :=
  w.tree?.map (attachTree w.disk)

/-- The open store, or else the store of the open tree. -/
def currentStore? (w : Workspace K V) : Option Device :=
  match w.store? with
  | some s => some (s.attach w.disk)
  | none => w.currentTree?.map Tree.store

/-- Gives up the open tree. What is unsaved is saved if possible. -/
def dropTree : Action (Workspace K V) Unit := fun w =>
  match w with
  | ⟨disk, store?, some t⟩ =>
    let (_, disk) := ((attachTree disk t).release).detach disk
    (.ok (), ⟨disk, store?, none⟩)
  | w => (.ok (), w)

/-- Opens the tree in the open store; `none` if there is no store. The store is
used up even if this fails. -/
def openTree : Action (Workspace K V) (Option Unit) := do
  let w ← get
  match w.store? with
  | none => return none
  | some _ =>
    dropTree
    let w ← get
    match w.currentStore? with
    | none => return none
    | some s =>
      let (r, s) := Tree.ofStore K V s
      let (_, disk) := s.detach w.disk
      set ({ w with disk, store? := none } : Workspace K V)
      let t ← r
      let (s, disk) := t.store.detach disk
      set (⟨disk, none, some { t with store := s }⟩ : Workspace K V)
      return some ()

/-- Saves the open tree and gives it up; `none` if there is none. -/
def closeTree : Action (Workspace K V) (Option Unit) := fun w =>
  match w with
  | ⟨disk, store?, some t⟩ =>
    let (r, s) := (attachTree disk t).close
    let (_, disk) := s.detach disk
    (r.map some, ⟨disk, store?, none⟩)
  | w => (.ok none, w)

/-- Gives up the open tree without saving it and removes the name of its file;
`none` if there is none. -/
def deleteTree : Action (Workspace K V) (Option Unit) := do
  let w ← get
  match w.tree? with
  | none => return none
  | some t =>
    set ({ w with tree? := none } : Workspace K V)
    match t.store.path? with
    | none => return some ()
    | some path =>
      onDisk (Disk.remove path)
      return some ()

/-- Opens a copy of the open tree's store, which must be in memory; `none` if
there is no such tree. -/
def fork : Action (Workspace K V) (Option Unit) := do
  let w ← get
  match w.tree? with
  | some ⟨.memory s, _, _⟩ =>
    set ({ w with store? := some (.memory s) } : Workspace K V)
    return some ()
  | _ => return none

end Workspace

end PagedMap
