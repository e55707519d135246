/-
# The tokens of a JSON text

A JSON text is cut into tokens by reading it character by character. A string
is kept as written except that escapes are resolved: an escaped code unit stays
apart from the characters, because two of them may make up one character and
one alone may make up none. Of the numbers only those written as plain digits
keep a value.

Key definitions: `Json.Token`, `Json.Mark`, `Json.Lexer.step`, `Json.tokens?`,
`Json.characters?`.
-/

namespace PagedMap.Json

/-- A piece of a string: a character, or the code unit of a `\u` escape. -/
inductive Mark where
  | char (c : Char)
  | unit (code : Nat)
  deriving Repr, DecidableEq

/-- A token. -/
inductive Token where
  | openObject
  | closeObject
  | openArray
  | closeArray
  | colon
  | comma
  | null
  | bool (b : Bool)
  /-- A number written as digits alone. -/
  | natural (n : Nat)
  /-- Any other number. -/
  | number
  | string (marks : List Mark)
  deriving Repr, DecidableEq

/-- How far a number has been read. -/
inductive NumberPart where
  | minus
  | zero
  | digits
  | point
  | fraction
  | e
  | eSign
  | exponent
  deriving Repr, DecidableEq

/-- Where the reader stands in a token. Marks are kept with the last first. -/
inductive Phase where
  | between
  | word (rest : List Char) (token : Token)
  | inNumber (part : NumberPart) (plain : Bool) (value : Nat)
  | inString (marks : List Mark)
  | escape (marks : List Mark)
  | hex (missing : Nat) (value : Nat) (marks : List Mark)
  deriving Repr

/-- The reader: where it stands, and the complete tokens, the last first. -/
structure Lexer where
  phase : Phase
  done : List Token
  deriving Repr

/-- The value of a hexadecimal digit. -/
def hexDigit? (c : Char) : Option Nat :=
  if '0' ≤ c && c ≤ '9' then some (c.toNat - 48)
  else if 'a' ≤ c && c ≤ 'f' then some (c.toNat - 87)
  else if 'A' ≤ c && c ≤ 'F' then some (c.toNat - 55)
  else none

/-- The four characters that may stand between tokens. -/
def isBlank (c : Char) : Bool := c = ' ' || c = '\n' || c = '\t' || c = '\r'

/-- The character that a letter after a backslash stands for. -/
def escaped? : Char → Option Char
  | '"' => some '"'
  | '\\' => some '\\'
  | '/' => some '/'
  | 'b' => some '\x08'
  | 'f' => some '\x0c'
  | 'n' => some '\n'
  | 'r' => some '\r'
  | 't' => some '\t'
  | _ => none

/-- Whether a number may end after a part. -/
def NumberPart.complete : NumberPart → Bool
  | .zero | .digits | .fraction | .exponent => true
  | .minus | .point | .e | .eSign => false

/-- The part that a character leads to, or `none` if it does not go on with the
number. -/
def NumberPart.next? (part : NumberPart) (c : Char) : Option NumberPart :=
  if c.isDigit then
    match part with
    | .minus => some (if c = '0' then .zero else .digits)
    | .zero => none
    | .digits => some .digits
    | .point | .fraction => some .fraction
    | .e | .eSign | .exponent => some .exponent
  else if c = '.' then
    match part with
    | .zero | .digits => some .point
    | _ => none
  else if c = 'e' || c = 'E' then
    match part with
    | .zero | .digits | .fraction => some .e
    | _ => none
  else if c = '+' || c = '-' then
    match part with
    | .e => some .eSign
    | _ => none
  else none

/-- Whether a number that has reached a part is still digits alone. -/
def NumberPart.isPlain : NumberPart → Bool
  | .zero | .digits => true
  | _ => false

/-- The token of a number that ends. -/
def numberToken (plain : Bool) (value : Nat) : Token :=
  if plain then .natural value else .number

namespace Lexer

/-- A character that stands between tokens or begins one. -/
def start (done : List Token) (c : Char) : Option Lexer :=
  if isBlank c then some ⟨.between, done⟩
  else if c.isDigit then
    some ⟨.inNumber (if c = '0' then .zero else .digits) true (c.toNat - 48), done⟩
  else
    match c with
    | '\x7b' => some ⟨.between, .openObject :: done⟩
    | '\x7d' => some ⟨.between, .closeObject :: done⟩
    | '[' => some ⟨.between, .openArray :: done⟩
    | ']' => some ⟨.between, .closeArray :: done⟩
    | ':' => some ⟨.between, .colon :: done⟩
    | ',' => some ⟨.between, .comma :: done⟩
    | '"' => some ⟨.inString [], done⟩
    | '-' => some ⟨.inNumber .minus false 0, done⟩
    | 't' => some ⟨.word ['r', 'u', 'e'] (.bool true), done⟩
    | 'f' => some ⟨.word ['a', 'l', 's', 'e'] (.bool false), done⟩
    | 'n' => some ⟨.word ['u', 'l', 'l'] .null, done⟩
    | _ => none

/-- Takes in one character; `none` if no token can hold it there. -/
def step (l : Lexer) (c : Char) : Option Lexer :=
  match l.phase with
  | .between => start l.done c
  | .word [] token => start (token :: l.done) c
  | .word [last] token => if c = last then some ⟨.between, token :: l.done⟩ else none
  | .word (next :: rest) token => if c = next then some ⟨.word rest token, l.done⟩ else none
  | .inNumber part plain value =>
    match part.next? c with
    | some next =>
      some ⟨.inNumber next (plain && next.isPlain) (value * 10 + (c.toNat - 48)), l.done⟩
    | none => if part.complete then start (numberToken plain value :: l.done) c else none
  | .inString marks =>
    if c = '"' then some ⟨.between, .string marks.reverse :: l.done⟩
    else if c = '\\' then some ⟨.escape marks, l.done⟩
    else if c < ' ' then none
    else some ⟨.inString (.char c :: marks), l.done⟩
  | .escape marks =>
    if c = 'u' then some ⟨.hex 3 0 marks, l.done⟩
    else (escaped? c).map fun e => ⟨.inString (.char e :: marks), l.done⟩
  | .hex missing value marks => do
    let d ← hexDigit? c
    match missing with
    | 0 => some ⟨.inString (.unit (value * 16 + d) :: marks), l.done⟩
    | missing + 1 => some ⟨.hex missing (value * 16 + d) marks, l.done⟩

/-- The tokens, once the text has ended. -/
def finish (l : Lexer) : Option (List Token) :=
  match l.phase with
  | .between => some l.done.reverse
  | .inNumber part plain value =>
    if part.complete then some (numberToken plain value :: l.done).reverse else none
  | _ => none

end Lexer

/-- The tokens of a text. -/
def tokens? (text : List Char) : Option (List Token) := do
  let l ← text.foldlM Lexer.step ⟨.between, []⟩
  l.finish

/-- The characters of a string. A code unit in the range of high surrogates
makes one character with the low surrogate that must follow it. -/
def characters? : List Mark → Option (List Char)
  | [] => some []
  | .char c :: marks => (characters? marks).map (c :: ·)
  | .unit high :: .unit low :: marks =>
    if 0xD800 ≤ high ∧ high < 0xDC00 then
      if 0xDC00 ≤ low ∧ low < 0xE000 then
        let c := Char.ofNat (0x10000 + (high - 0xD800) * 0x400 + (low - 0xDC00))
        (characters? marks).map (c :: ·)
      else none
    else if 0xDC00 ≤ high ∧ high < 0xE000 then none
    else (characters? (.unit low :: marks)).map (Char.ofNat high :: ·)
  | .unit code :: marks =>
    if 0xD800 ≤ code ∧ code < 0xE000 then none
    else (characters? marks).map (Char.ofNat code :: ·)

end PagedMap.Json
