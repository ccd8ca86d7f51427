import DrakeSyntax.Text.Extending
import DrakeSyntax.Text.Printable

/-!
# Quoted text

A text is shown between double quotes on one line. The quote and the backslash are
escaped by a backslash, four control characters have a letter of their own, and every
other character that would not be seen as itself is written by its scalar value.
-/

namespace DrakeSyntax.Text

/-- The lowercase hexadecimal digits of a number, without leading zeros. -/
def hexadecimal (n : Nat) : List Char := Nat.toDigits 16 n

/-- How a character stands in a quoted text. -/
def quotedChar (c : Char) : List Char :=
  match c with
  | '"' => ['\\', '"']
  | '\\' => ['\\', '\\']
  | '\t' => ['\\', 't']
  | '\r' => ['\\', 'r']
  | '\n' => ['\\', 'n']
  | '\x00' => ['\\', '0']
  | c =>
    if isPrintable c && !isExtending c then [c]
    else ['\\', 'u', '\x7b'] ++ hexadecimal c.toNat ++ ['\x7d']

/-- A text between double quotes. -/
def quoted (s : String) : String :=
  String.ofList ('"' :: s.toList.flatMap quotedChar ++ ['"'])

end DrakeSyntax.Text
