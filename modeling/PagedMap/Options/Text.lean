/-
# Options as text

Options are written as a JSON object with one field a line. They are read from
an object in which fields may come in any order, be missing (the default then
stands), or be unknown (then ignored); or from an array of the first fields in
order. A known field must come once at most and must be of its type: a truth
value, or digits alone for a number in the field's range.

Key definitions: `Options.Field`, `Options.toText`, `Options.ofText`.
-/
import PagedMap.Json.Value
import PagedMap.Options

namespace PagedMap.Options

/-- The fields, in order. -/
inductive Field where
  | createIfMissing
  | errorIfExists
  | blockSize
  | maxBlocks
  | regionBlockSize
  | regionMaxBlocks
  | reserveSize
  | syncOnSave
  deriving Repr, DecidableEq

/-- All fields, in order. -/
def Field.all : List Field :=
  [.createIfMissing, .errorIfExists, .blockSize, .maxBlocks, .regionBlockSize,
    .regionMaxBlocks, .reserveSize, .syncOnSave]

/-- The name of a field. -/
def Field.name : Field → String
  | .createIfMissing => "create_if_missing"
  | .errorIfExists => "error_if_exists"
  | .blockSize => "block_size"
  | .maxBlocks => "max_blocks"
  | .regionBlockSize => "region_block_size"
  | .regionMaxBlocks => "region_max_blocks"
  | .reserveSize => "reserve_size"
  | .syncOnSave => "sync_on_save"

/-- The field of a name. -/
def Field.ofName? (name : String) : Option Field :=
  Field.all.find? fun f => f.name = name

/-- The value of a field as text. -/
def fieldText (o : Options) : Field → String
  | .createIfMissing => toString o.createIfMissing
  | .errorIfExists => toString o.errorIfExists
  | .blockSize => toString o.blockSize
  | .maxBlocks => toString o.maxBlocks
  | .regionBlockSize => toString o.regionBlockSize
  | .regionMaxBlocks => toString o.regionMaxBlocks
  | .reserveSize => toString o.reserveSize
  | .syncOnSave => toString o.syncOnSave

/-- One line for a field, without a comma. -/
def line (o : Options) (f : Field) : String :=
  "  \"" ++ f.name ++ "\": " ++ o.fieldText f

/-- The options as text. -/
def toText (o : Options) : String :=
  "\x7b\n" ++ ",\n".intercalate (Field.all.map o.line) ++ "\n\x7d"

/-- A truth value. -/
def ofBool? : Json.Value → Option Bool
  | .bool b => some b
  | _ => none

/-- A number below a limit. -/
def ofNatural? (limit : Nat) : Json.Value → Option Nat
  | .natural n => if n < limit then some n else none
  | _ => none

/-- Puts a value into a field; `none` if it is not of the field's type. Sizes
are below 2 ^ 64 and counts below 2 ^ 32. -/
def set? (o : Options) (v : Json.Value) : Field → Option Options
  | .createIfMissing => (ofBool? v).map fun b => { o with createIfMissing := b }
  | .errorIfExists => (ofBool? v).map fun b => { o with errorIfExists := b }
  | .blockSize => (ofNatural? UInt64.size v).map fun n => { o with blockSize := n }
  | .maxBlocks => (ofNatural? UInt32.size v).map fun n => { o with maxBlocks := n }
  | .regionBlockSize => (ofNatural? UInt64.size v).map fun n => { o with regionBlockSize := n }
  | .regionMaxBlocks => (ofNatural? UInt32.size v).map fun n => { o with regionMaxBlocks := n }
  | .reserveSize => (ofNatural? UInt64.size v).map fun n => { o with reserveSize := n }
  | .syncOnSave => (ofBool? v).map fun b => { o with syncOnSave := b }

/-- Takes in the members of an object; `seen` are the known fields so far. -/
def ofMembers? (seen : List Field) (o : Options) :
    List (List Json.Mark × Json.Value) → Option Options
  | [] => some o
  | (name, v) :: members => do
    let cs ← Json.characters? name
    match Field.ofName? (String.ofList cs) with
    | none => ofMembers? seen o members
    | some f =>
      if f ∈ seen then none
      else
        let o ← o.set? v f
        ofMembers? (f :: seen) o members

/-- Takes in the items of an array as the given fields. -/
def ofItems? (o : Options) : List Field → List Json.Value → Option Options
  | _, [] => some o
  | [], _ :: _ => none
  | f :: fields, v :: items => do
    let o ← o.set? v f
    ofItems? o fields items

/-- The options that a JSON value stands for. -/
def ofValue? : Json.Value → Option Options
  | .object members => ofMembers? [] {} members
  | .array items => ofItems? {} Field.all items
  | _ => none

/-- The options that a text stands for, if they are valid. -/
def ofText (s : String) : Except Error Options := do
  match (Json.parse? s).bind ofValue? with
  | none => throw .serialization
  | some o =>
    o.validate
    return o

end PagedMap.Options
