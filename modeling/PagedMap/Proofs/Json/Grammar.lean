/-
# What a JSON text looks like

A text is a sequence of tokens with blanks anywhere before and after them. A
value has one sequence of tokens, and a token may be written in several ways: a
character of a string as itself, by one of the eight short escapes, or by its
UTF-16 code units in hexadecimal digits of either case; a number with a sign, a
fraction and an exponent. Nothing here refers to how a text is read.

Key definitions: `Json.Mark.Written`, `Json.Token.Written`, `Json.Laid`,
`Json.Value.tokens`, `Json.Spells`.
-/
import Mathlib.Data.List.Forall2
import PagedMap.Json.Value

namespace PagedMap.Json

/-! ### Tokens -/

/-- The hexadecimal digits, in either case, and their values. -/
def hexDigits : List (Char × Nat) :=
  ['0', '1', '2', '3', '4', '5', '6', '7', '8', '9', 'a', 'b', 'c', 'd', 'e', 'f'].zipIdx ++
    ['A', 'B', 'C', 'D', 'E', 'F'].zipIdx 10

/-- The letters that may follow a backslash, and the characters they stand for. -/
def shortEscapes : List (Char × Char) :=
  [('"', '"'), ('\\', '\\'), ('/', '/'), ('b', '\x08'), ('f', '\x0c'), ('n', '\n'), ('r', '\r'),
    ('t', '\t')]

/-- How a piece of a string is written. Control characters, the quote and the
backslash do not stand for themselves. -/
inductive Mark.Written : Mark → List Char → Prop where
  | plain {c : Char} (hlow : ' ' ≤ c) (hquote : c ≠ '"') (hslash : c ≠ '\\') :
    Written (.char c) [c]
  | short {letter c : Char} (h : (letter, c) ∈ shortEscapes) : Written (.char c) ['\\', letter]
  | code {a b c d : Char × Nat} (ha : a ∈ hexDigits) (hb : b ∈ hexDigits) (hc : c ∈ hexDigits)
    (hd : d ∈ hexDigits) :
    Written (.unit (((a.2 * 16 + b.2) * 16 + c.2) * 16 + d.2)) ['\\', 'u', a.1, b.1, c.1, d.1]

/-- Decimal digits, and one at least. -/
def Digits (ds : List Char) : Prop := ds ≠ [] ∧ ∀ c ∈ ds, c.isDigit = true

/-- The fraction of a number, which may be left out. -/
inductive Fraction : List Char → Prop where
  | absent : Fraction []
  | point {ds : List Char} (h : Digits ds) : Fraction ('.' :: ds)

/-- The exponent of a number, which may be left out, and so may its sign. -/
inductive Exponent : List Char → Prop where
  | absent : Exponent []
  | unsigned {e : Char} {ds : List Char} (he : e = 'e' ∨ e = 'E') (h : Digits ds) :
    Exponent (e :: ds)
  | signed {e sign : Char} {ds : List Char} (he : e = 'e' ∨ e = 'E')
    (hsign : sign = '+' ∨ sign = '-') (h : Digits ds) : Exponent (e :: sign :: ds)

/-- How a token is written. Whole numbers have no leading zeros; a number that
is more than digits has a sign, a fraction or an exponent. -/
inductive Token.Written : Token → List Char → Prop where
  | openObject : Written .openObject ['\x7b']
  | closeObject : Written .closeObject ['\x7d']
  | openArray : Written .openArray ['[']
  | closeArray : Written .closeArray [']']
  | colon : Written .colon [':']
  | comma : Written .comma [',']
  | null : Written .null ['n', 'u', 'l', 'l']
  | yes : Written (.bool true) ['t', 'r', 'u', 'e']
  | no : Written (.bool false) ['f', 'a', 'l', 's', 'e']
  | natural (n : Nat) : Written (.natural n) (Nat.toDigits 10 n)
  | number (n : Nat) {sign fraction exponent : List Char} (hsign : sign = [] ∨ sign = ['-'])
    (hf : Fraction fraction) (he : Exponent exponent)
    (hmore : sign ≠ [] ∨ fraction ≠ [] ∨ exponent ≠ []) :
    Written .number (sign ++ Nat.toDigits 10 n ++ fraction ++ exponent)
  | string {marks : List Mark} {pieces : List (List Char)}
    (h : List.Forall₂ Mark.Written marks pieces) :
    Written (.string marks) ('"' :: pieces.flatten ++ ['"'])

/-- The tokens that may stand right beside any other. -/
def Token.isPunctuation : Token → Bool
  | .openObject | .closeObject | .openArray | .closeArray | .colon | .comma => true
  | _ => false

/-- The tokens written one after the other, with blanks anywhere between them. -/
inductive Laid : List Token → List Char → Prop where
  | nil : Laid [] []
  | blank {c : Char} {ts : List Token} {text : List Char} (hc : isBlank c = true)
    (h : Laid ts text) : Laid ts (c :: text)
  | token {t : Token} {ts : List Token} {w text : List Char} (hw : t.Written w)
    (h : Laid ts text) : Laid (t :: ts) (w ++ text)

theorem Laid.append {ts us : List Token} {text more : List Char} (h : Laid ts text)
    (hmore : Laid us more) : Laid (ts ++ us) (text ++ more) := by
  induction h with
  | nil => exact hmore
  | blank hc _ ih => exact .blank hc ih
  | @token t ts w text hw _ ih =>
    rw [List.append_assoc]
    exact .token hw ih

/-! ### Values -/

mutual

/-- The tokens of a value. -/
def Value.tokens : Value → List Token
  | .null => [.null]
  | .bool b => [.bool b]
  | .natural n => [.natural n]
  | .number => [.number]
  | .string marks => [.string marks]
  | .array [] => [.openArray, .closeArray]
  | .array (v :: items) => .openArray :: v.tokens ++ itemTokens items ++ [.closeArray]
  | .object [] => [.openObject, .closeObject]
  | .object ((name, v) :: members) =>
    .openObject :: .string name :: .colon :: v.tokens ++ memberTokens members ++ [.closeObject]

/-- The further items of an array, with a comma before each. -/
def itemTokens : List Value → List Token
  | [] => []
  | v :: items => .comma :: v.tokens ++ itemTokens items

/-- The further members of an object, with a comma before each. -/
def memberTokens : List (List Mark × Value) → List Token
  | [] => []
  | (name, v) :: members =>
    .comma :: .string name :: .colon :: v.tokens ++ memberTokens members

end

/-! ### Strings -/

/-- The characters that marks spell: each stands as itself or as its UTF-16
code units, one in the basic plane and a surrogate pair beyond it. -/
inductive Spells : List Mark → List Char → Prop where
  | nil : Spells [] []
  | char {c : Char} {marks : List Mark} {cs : List Char} (h : Spells marks cs) :
    Spells (.char c :: marks) (c :: cs)
  | unit {c : Char} {marks : List Mark} {cs : List Char} (hc : c.toNat < 0x10000)
    (h : Spells marks cs) : Spells (.unit c.toNat :: marks) (c :: cs)
  | pair {c : Char} {marks : List Mark} {cs : List Char} (hc : 0x10000 ≤ c.toNat)
    (h : Spells marks cs) :
    Spells (.unit (0xD800 + (c.toNat - 0x10000) / 0x400) ::
      .unit (0xDC00 + (c.toNat - 0x10000) % 0x400) :: marks) (c :: cs)

theorem spells_map_char (cs : List Char) : Spells (cs.map .char) cs := by
  induction cs with
  | nil => exact .nil
  | cons c cs ih => exact .char ih

/-- A character is no surrogate. -/
theorem toNat_surrogate (c : Char) : c.toNat < 0xD800 ∨ 0xE000 ≤ c.toNat ∧ c.toNat < 0x110000 :=
  c.valid

/-- A code unit that is a character stands for it, whatever mark comes next. -/
theorem characters?_unit {c : Char} (hc : c.toNat < 0x10000) (marks : List Mark) :
    characters? (.unit c.toNat :: marks) = (characters? marks).map (c :: ·) := by
  have hvalid := toNat_surrogate c
  have hhigh : ¬ (0xD800 ≤ c.toNat ∧ c.toNat < 0xDC00) := by omega
  have hlow : ¬ (0xDC00 ≤ c.toNat ∧ c.toNat < 0xE000) := by omega
  have hneither : ¬ (0xD800 ≤ c.toNat ∧ c.toNat < 0xE000) := by omega
  rcases marks with _ | ⟨_ | _, rest⟩
  · simp [characters?, hneither]
  · simp [characters?, hneither]
  · rw [characters?, if_neg hhigh, if_neg hlow, Char.ofNat_toNat]

/-- A surrogate pair stands for its character. -/
theorem characters?_pair {c : Char} (hc : 0x10000 ≤ c.toNat) (marks : List Mark) :
    characters? (.unit (0xD800 + (c.toNat - 0x10000) / 0x400) ::
      .unit (0xDC00 + (c.toNat - 0x10000) % 0x400) :: marks) =
        (characters? marks).map (c :: ·) := by
  have hvalid := toNat_surrogate c
  have hcode : 0x10000 + (0xD800 + (c.toNat - 0x10000) / 0x400 - 0xD800) * 0x400 +
      (0xDC00 + (c.toNat - 0x10000) % 0x400 - 0xDC00) = c.toNat := by omega
  rw [characters?, if_pos (by omega), if_pos (by omega), hcode, Char.ofNat_toNat]

/-- The reader makes out the characters. -/
theorem Spells.characters?_eq {marks : List Mark} {cs : List Char} (h : Spells marks cs) :
    characters? marks = some cs := by
  induction h with
  | nil => rfl
  | char _ ih => rw [characters?, ih, Option.map_some]
  | unit hc _ ih => rw [characters?_unit hc, ih, Option.map_some]
  | pair hc _ ih => rw [characters?_pair hc, ih, Option.map_some]

end PagedMap.Json
