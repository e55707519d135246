/-
# JSON values

A value is read from the tokens of a text by a machine that keeps, for every
array and object it is inside of, the members read so far. Any depth of nesting
is accepted, member names may repeat, and no name is looked at.

Key definitions: `Json.Value`, `Json.Expect.step`, `Json.parse?`.
-/
import PagedMap.Json.Token

namespace PagedMap.Json

/-- A JSON value. The names of members and the strings are as written. -/
inductive Value where
  | null
  | bool (b : Bool)
  /-- A number written as digits alone. -/
  | natural (n : Nat)
  /-- Any other number. -/
  | number
  | string (marks : List Mark)
  | array (items : List Value)
  | object (members : List (List Mark × Value))
  deriving Repr

/-- An array or object that is not complete, its members with the last first;
for an object also the name of the member that comes next. -/
inductive Frame where
  | array (items : List Value)
  | object (members : List (List Mark × Value)) (name : List Mark)

/-- What may come next inside the given frames, the innermost first. -/
inductive Expect where
  | value (frames : List Frame)
  | valueOrClose (frames : List Frame)
  | member (members : List (List Mark × Value)) (frames : List Frame)
  | memberOrClose (frames : List Frame)
  | colon (name : List Mark) (members : List (List Mark × Value)) (frames : List Frame)
  /-- A value is complete; its frame goes on or ends, or the text ends. -/
  | next (v : Value) (frames : List Frame)

/-- A token where a value must begin. -/
def Expect.begin (frames : List Frame) : Token → Option Expect
  | .openObject => some (.memberOrClose frames)
  | .openArray => some (.valueOrClose frames)
  | .null => some (.next .null frames)
  | .bool b => some (.next (.bool b) frames)
  | .natural n => some (.next (.natural n) frames)
  | .number => some (.next .number frames)
  | .string marks => some (.next (.string marks) frames)
  | _ => none

/-- Takes in one token; `none` if it may not come there. -/
def Expect.step : Expect → Token → Option Expect
  | .value frames, t => begin frames t
  | .valueOrClose frames, .closeArray => some (.next (.array []) frames)
  | .valueOrClose frames, t => begin (.array [] :: frames) t
  | .member members frames, .string name => some (.colon name members frames)
  | .memberOrClose frames, .string name => some (.colon name [] frames)
  | .memberOrClose frames, .closeObject => some (.next (.object []) frames)
  | .colon name members frames, .colon => some (.value (.object members name :: frames))
  | .next v (.array items :: frames), .comma => some (.value (.array (v :: items) :: frames))
  | .next v (.array items :: frames), .closeArray =>
    some (.next (.array (v :: items).reverse) frames)
  | .next v (.object members name :: frames), .comma =>
    some (.member ((name, v) :: members) frames)
  | .next v (.object members name :: frames), .closeObject =>
    some (.next (.object ((name, v) :: members).reverse) frames)
  | _, _ => none

/-- The value that the tokens are, and nothing besides. -/
def ofTokens? (ts : List Token) : Option Value := do
  match ← ts.foldlM Expect.step (.value []) with
  | .next v [] => some v
  | _ => none

/-- The value that a text is. -/
def parse? (text : String) : Option Value := do
  let ts ← tokens? text.toList
  ofTokens? ts

end PagedMap.Json
