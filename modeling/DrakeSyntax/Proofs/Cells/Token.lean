import DrakeSyntax.Proofs.Cells.Gap
import DrakeSyntax.Proofs.Cells.Numeral
import DrakeSyntax.Proofs.Cells.StringLiteral
import DrakeSyntax.Token.Stream

/-!
# Tokens in cells

A token is scanned from cells as it is from characters, except that a punctuator is found by its
spelling: it is the longest one that is spelled in front.

* `CellScan.token` scans one token.
* `CellSource.tokens` reads all tokens that are left.
-/

namespace DrakeSyntax

namespace Punctuator

/-- All punctuators, those with the longer spelling first. -/
def byLength : List Punctuator :=
  [starStarEqual, lessLessEqual, greaterGreaterEqual,
    dotDot, arrow, starStar, lessLess, greaterGreater, equalEqual, notEqual, lessEqual,
    greaterEqual, plusEqual, minusEqual, starEqual, slashEqual, percentEqual, ampersandEqual,
    barEqual, caretEqual,
    leftParen, rightParen, leftBracket, rightBracket, leftBrace, rightBrace, comma, colon, dot,
    assign, plus, minus, star, slash, percent, ampersand, bar, caret, exclamation, less, greater]

/-- The longest punctuator that a text begins with. -/
def longest? (text : List Char) : Option Punctuator :=
  byLength.find? fun p => p.spelling.toList.isPrefixOf text

end Punctuator

namespace CellScan

/-- Skips a gap and returns the first line break in it. -/
def gap : CellScan (Option Position) := do
  let g := Gap.leading (← get).cells
  setCells g.rest
  match g.openComment with
  | some start => failAt start .unterminatedComment
  | none => return g.firstBreak

/-- Scans the token that begins with the character `c` at `start`. -/
def lexeme (c : Char) (start : Position) : CellScan Token := do
  match Punctuator.longest? (← ahead 3) with
  | some p =>
    skip p.spelling.length
    return .punctuator p
  | none =>
    if isWordStart c then return .ofWord (String.ofList (← takeWhile isWordChar))
    skip 1
    if c == '"' || c == '\'' then return .string (← stringLiteral c start)
    if c.isDigit then return .number (← number c start)
    failAt start (.unexpectedCharacter c)

/-- Scans one token with the gap before it. Line breaks in the gap are the token. -/
def token : CellScan PlacedToken := do
  match ← gap with
  | some position => return ⟨.newline, position⟩
  | none =>
    let s ← get
    match s.cells with
    | [] => return ⟨.endOfInput, s.finish⟩
    | c :: _ => return ⟨← lexeme c.char c.position, c.position⟩

end CellScan

namespace CellSource

/-- Takes at most `bound` tokens, ending with the end token. -/
def takeUpTo : Nat → CellSource → Except LexError (List PlacedToken)
  | 0, _ => .ok []
  | bound + 1, s =>
    match CellScan.token s with
    | .error e _ => .error e
    | .ok t s' => if t.token = .endOfInput then .ok [t] else (takeUpTo bound s').map (t :: ·)

/-- All tokens that are left, ending with the end token. A token takes at least one cell. -/
def tokens (s : CellSource) : Except LexError (List PlacedToken) := takeUpTo (s.cells.length + 2) s

end CellSource

end DrakeSyntax
