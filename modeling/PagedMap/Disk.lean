/-
# A directory of files

A directory gives names to files. A file outlives the removal of its name as
long as somebody has it open, and a name may then be given to another file. So
names lead to file numbers, and file numbers to contents. There are no
directories inside the directory: a path that leads into one leads to no file,
and none can be made there. Two paths with one `Path.name?` are one file here.

Key definitions: `Disk`, `Disk.openBacking`, `Disk.find`, `Disk.patch`,
`Disk.remove`.
-/
import PagedMap.File
import PagedMap.Options.Text
import PagedMap.Path
import Std.Data.TreeMap

namespace PagedMap

/-- The number of a file. -/
abbrev FileId := Nat

/-- A directory and the contents of its files. -/
structure Disk where
  /-- The names and the files they are given to. -/
  names : List (String × FileId)
  /-- The contents of the files. -/
  files : Std.TreeMap FileId File
  /-- A number that no file has yet. -/
  fresh : FileId

namespace Disk

/-- A directory without files. -/
def empty : Disk := ⟨[], ∅, 0⟩

/-- The file that a path leads to. -/
def lookup? (d : Disk) (path : String) : Option FileId :=
  (Path.name? path).bind fun name => d.names.lookup name

/-- The content of a file. -/
def content (d : Disk) (id : FileId) : File := d.files[id]?.getD .empty

/-- Replaces the content of a file. -/
def setContent (d : Disk) (id : FileId) (f : File) : Disk :=
  { d with files := d.files.insert id f }

/-- The report that a path leads to no file. -/
def noFile (path : String) : Error :=
  .io (if Path.isDirectory path then .isDirectory else .notFound)

/-- The file that a path leads to, or a report that there is none. -/
def find (d : Disk) (path : String) : Except Error FileId :=
  match d.lookup? path with
  | some id => .ok id
  | none => .error (noFile path)

/-- Makes a file without content where a path leads. -/
def make (d : Disk) (path : String) : Except Error (FileId × Disk) :=
  match Path.name? path with
  | some name =>
    .ok (d.fresh, ⟨(name, d.fresh) :: d.names, d.files.insert d.fresh .empty, d.fresh + 1⟩)
  | none => .error (noFile path)

/-- Whether a path leads to a file or to a directory. -/
def pathExists (d : Disk) (path : String) : Bool :=
  (d.lookup? path).isSome || Path.isDirectory path

/-- Finds the file of a store, or makes it, as the options allow. -/
def openBacking (o : Options) (path : String) : Action Disk FileId := do
  let d ← get
  if d.pathExists path then
    if o.errorIfExists then throw (.alreadyExists path)
    d.find path
  else if o.createIfMissing then
    let (id, d) ← d.make path
    set d
    return id
  else throw (.notFound path)

/-- Writes a whole file, made if missing. -/
def writeBytes (path : String) (content : Bytes) : Action Disk Unit := do
  let d ← get
  match d.lookup? path with
  | some id => set (d.setContent id (.ofBytes content))
  | none =>
    let (id, d) ← d.make path
    set (d.setContent id (.ofBytes content))

/-- Writes bytes into a file from an offset on. -/
def patch (path : String) (offset : Nat) (data : Bytes) : Action Disk Unit := do
  let d ← get
  let id ← d.find path
  set (d.setContent id ((d.content id).write offset data))

/-- Cuts or extends a file to a length. -/
def resize (path : String) (n : Nat) : Action Disk Unit := do
  let d ← get
  let id ← d.find path
  set (d.setContent id ((d.content id).resize n))

/-- Takes the name that a path leads to from its file. -/
def remove (path : String) : Action Disk Unit := do
  let d ← get
  let _ ← d.find path
  set { d with names := d.names.filter fun entry => Path.name? path ≠ some entry.1 }

/-- Reads from an offset on, `n` bytes at most. -/
def readBytes (d : Disk) (path : String) (offset n : Nat) : Except Error Bytes := do
  let id ← d.find path
  return (d.content id).window offset n

/-- Reads a whole file as text. -/
def readText (d : Disk) (path : String) : Except Error String := do
  let id ← d.find path
  match Text.ofUtf8 (d.content id).toBytes with
  | .ok s => return s
  | .error _ => throw (.io .invalidData)

/-- The length of a file and the checksum of its content. -/
def info? (d : Disk) (path : String) : Option (Nat × UInt32) :=
  (d.lookup? path).map fun id => ((d.content id).size, (d.content id).checksum)

/-- Writes options into a file. -/
def saveOptions (path : String) (o : Options) : Action Disk Unit :=
  writeBytes path (Text.toUtf8 o.toText)

/-- Reads options from a file. -/
def loadOptions (d : Disk) (path : String) : Except Error Options := do
  let s ← d.readText path
  Options.ofText s

end Disk

end PagedMap
