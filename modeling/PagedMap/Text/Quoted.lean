/-
# Quoted text

A text in double quotes, with every character that has no shape of its own, the
quote and the backslash written as escapes.

Key definitions: `Text.quoted`.
-/
import PagedMap.Text.Shown

namespace PagedMap.Text

/-- One character inside quotes. The number of an escaped one is hexadecimal. -/
def quotedChar (c : Char) : List Char :=
  match c with
  | '\x00' => ['\\', '0']
  | '\t' => ['\\', 't']
  | '\n' => ['\\', 'n']
  | '\r' => ['\\', 'r']
  | '"' => ['\\', '"']
  | '\\' => ['\\', '\\']
  | c =>
    if isShown c then [c]
    else ['\\', 'u', '\x7b'] ++ Nat.toDigits 16 c.toNat ++ ['\x7d']

/-- The text in quotes. -/
def quoted (cs : List Char) : String :=
  String.ofList (['"'] ++ cs.flatMap quotedChar ++ ['"'])

end PagedMap.Text
