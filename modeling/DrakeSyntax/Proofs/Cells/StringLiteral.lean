import DrakeSyntax.Proofs.Cells.Scan
import DrakeSyntax.Token.StringLiteral

/-!
# String literals in cells

A string literal stands between two equal quotes on one line. A backslash takes the next
character with it: four letters name control characters, any other character is itself.
-/

namespace DrakeSyntax

/-- The part of a string literal behind its opening quote. -/
inductive StringBody where
  | closed (value : List Char) (rest : List Cell)
  /-- The line or the source ends first, at the beginning of `rest`. -/
  | unclosed (rest : List Cell)

namespace StringBody

/-- One more character in front of the value. -/
def cons (c : Char) : StringBody → StringBody
  | closed value rest => closed (c :: value) rest
  | unclosed rest => unclosed rest

/-- Reads up to the closing quote. -/
def read (quote : Char) : List Cell → StringBody
  | [] => unclosed []
  | c :: cs =>
    if c.isBreak then unclosed (c :: cs)
    else if c.char = quote then closed [] cs
    else if c.char = '\\' then
      match cs with
      | [] => unclosed []
      | d :: ds => if d.isBreak then unclosed (d :: ds) else (read quote ds).cons (escaped d.char)
    else (read quote cs).cons c.char

end StringBody

/-- Scans a string literal whose opening quote, at `start`, has been taken. -/
def CellScan.stringLiteral (quote : Char) (start : Position) : CellScan String := do
  match StringBody.read quote (← get).cells with
  | .closed value rest =>
    setCells rest
    return String.ofList value
  | .unclosed rest =>
    setCells rest
    failAt start .unterminatedString

end DrakeSyntax
