/-
# Accounts

An account is a record value: an owner, a balance, and any number of tags. The
body lists the fields in this order. A text is its length in eight bytes and
its UTF-8 bytes, a list is its length in eight bytes and its members, and the
balance is eight bytes in two's complement, all with the least significant byte
first. The body's length, a 32-bit word with the most significant byte first,
stands before it. A reader takes what the fields need and leaves the rest of
the body unread.

Key definitions: `Account`, `Account.body`, `Account.ofBody`, `account`.
-/
import PagedMap.Codec.Counted

namespace PagedMap

/-- An owner's balance, with tags. -/
structure Account where
  owner : String
  balance : Int64
  tags : List String
  deriving Repr, DecidableEq

namespace Account

/-- The bytes of a length. -/
def lengthBytes (n : Nat) : Bytes := .ofNatLE 8 n

/-- The bytes of a text. -/
def textBytes (s : String) : Bytes :=
  lengthBytes s.utf8ByteSize ++ Text.toUtf8 s

/-- The bytes of the fields. -/
def body (a : Account) : Bytes :=
  textBytes a.owner ++ .ofNatLE 8 (a.balance.toInt % UInt64.size).toNat ++
    lengthBytes a.tags.length ++ a.tags.flatMap textBytes

/-- A reader of a field: the field and the bytes after it, or `none` where the
bytes hold no such field. -/
abbrev Reader (α : Type) := StateT Bytes Option α

/-- Reads `n` bytes. -/
def readBytes (n : Nat) : Reader Bytes := fun bs => do
  let taken ← Bytes.window? n bs
  return (taken, bs.drop n)

/-- Reads a number of eight bytes. -/
def readNumber : Reader Nat := do
  let digits ← readBytes 8
  return digits.toNatLE

/-- Reads a text. -/
def readText : Reader String := do
  let n ← readNumber
  let bs ← readBytes n
  match Text.ofUtf8 bs with
  | .ok s => return s
  | .error _ => failure

/-- Reads `n` texts. -/
def readTexts : Nat → Reader (List String)
  | 0 => return []
  | n + 1 => do
    let s ← readText
    let rest ← readTexts n
    return s :: rest

/-- Reads the fields. -/
def read : Reader Account := do
  let owner ← readText
  let balance ← readNumber
  let count ← readNumber
  let tags ← readTexts count
  return ⟨owner, Int64.ofInt balance, tags⟩

/-- The account whose fields the bytes begin with. -/
def ofBody (bs : Bytes) : Except Error Account :=
  match read bs with
  | some (a, _) => .ok a
  | none => .error .serialization

/-- The body that follows its length. -/
def payload (bs : Bytes) : Except Error Bytes :=
  match Counted.payload bs with
  | .error (.corruption (.payloadTruncated _ _)) => .error (.corruption .recordTruncated)
  | result => result

end Account

/-- Accounts. -/
def account : Codec Account where
  size a := Counted.countSize + a.body.length
  sizeAt bs := (Account.payload bs).map fun body => Counted.countSize + body.length
  encode a :=
    match Counted.encode a.body with
    | .error _ => .error (.invalidArgument .recordTooLong)
    | result => result
  decode bs := do
    let body ← Account.payload bs
    Account.ofBody body

end PagedMap
