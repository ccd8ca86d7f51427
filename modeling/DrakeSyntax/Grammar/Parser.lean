import Std.Data.TreeMap
import DrakeSyntax.Error
import DrakeSyntax.Tree

/-!
# Parsers

A parser walks over tokens with a cursor and may fail. It may try a phrase and, when the
phrase does not fit, go back to where it began (`Parser.attempt`). Outcomes of bracketed
phrases are remembered for good, so that trying the phrases around them again does not read
them again.

The cursor stands at a token at all times: the last token is the end of the input, and the
cursor does not move past that.
-/

namespace DrakeSyntax

/-- A place among the tokens: how many come before it, and those from it on. -/
structure Cursor where
  index : Nat
  rest : List PlacedToken

namespace Cursor

/-- The token at the cursor. -/
def current (c : Cursor) : PlacedToken :=
  match c.rest with
  | t :: _ => t
  | [] => ⟨.endOfInput, .start⟩

/-- The token behind the one at the cursor, or that one if it is the last. -/
def following (c : Cursor) : Token :=
  match c.rest with
  | _ :: t :: _ => t.token
  | _ => c.current.token

/-- The cursor one token further. It stays at the end of the input. -/
def advance (c : Cursor) : Cursor :=
  match c.rest with
  | t :: ts => if t.token = .endOfInput then c else ⟨c.index + 1, ts⟩
  | [] => c

end Cursor

/-- What a bracketed phrase came to, and the cursor it left. -/
structure BracketEntry where
  result : Except ParseError Node
  cursor : Cursor

/-- The state of a parser. -/
structure ParserState where
  cursor : Cursor
  /-- Outcomes of bracketed phrases by the index of their opening bracket. -/
  brackets : Std.TreeMap Nat BracketEntry

/-- Tokens with an end token behind them unless they already end with one. -/
def closeTokens (ts : List PlacedToken) : List PlacedToken :=
  match ts.getLast? with
  | some t => if t.token = .endOfInput then ts else ts ++ [⟨.endOfInput, t.position⟩]
  | none => [⟨.endOfInput, .start⟩]

/-- The state at the first of some tokens. -/
def ParserState.ofTokens (ts : List PlacedToken) : ParserState := ⟨⟨0, closeTokens ts⟩, ∅⟩

/-- A computation that reads tokens and may fail. -/
abbrev Parser := EStateM ParseError ParserState

namespace Parser

/-- The token at the cursor. -/
def peek : Parser PlacedToken := fun s => .ok s.cursor.current s

/-- The token behind the one at the cursor. -/
def peekFollowing : Parser Token := fun s => .ok s.cursor.following s

/-- Takes the token at the cursor. -/
def advance : Parser PlacedToken := fun s =>
  .ok s.cursor.current { s with cursor := s.cursor.advance }

/-- The cursor, for a later `reset`. -/
def mark : Parser Cursor := fun s => .ok s.cursor s

/-- Puts the cursor back. -/
def reset (c : Cursor) : Parser Unit := fun s => .ok () { s with cursor := c }

/-- Runs a parser and reports its failure as a result, with the cursor put back. -/
def attempt (p : Parser α) : Parser (Except ParseError α) := fun s =>
  match p s with
  | .ok a s' => .ok (.ok a) s'
  | .error e s' => .ok (.error e) { s' with cursor := s.cursor }

/-- Attempts a parser under a condition. -/
def attemptIf (condition : Bool) (p : Parser α) : Parser (Option α) := do
  if condition then return (← attempt p).toOption else return none

/-- Fails at the token at the cursor, which should have been one of `expected`. -/
def failExpecting (expected : List String) : Parser α := fun s =>
  .error (.unexpected expected s.cursor.current) s

/-- Fails at a given token because the structure around it is wrong. -/
def rejectAt (t : PlacedToken) (note : String) : Parser α := fun s =>
  .error (.structural note t) s

/-- Fails at the token at the cursor because the structure around it is wrong. -/
def reject (note : String) : Parser α := fun s => .error (.structural note s.cursor.current) s

/-- Whether the cursor is at the given token. -/
def isAt (t : Token) : Parser Bool := return (← peek).token == t

/-- Takes the given token if the cursor is at it, and tells whether it was. -/
def eat (t : Token) : Parser Bool := do
  let found ← isAt t
  if found then discard advance
  return found

/-- Takes the given token and returns its position. -/
def expect (t : Token) : Parser Position := do
  if ← isAt t then return (← advance).position else failExpecting [t.describe]

/-- Takes a name and returns it with its position. -/
def identifier : Parser (String × Position) := do
  let t ← peek
  match t.token with
  | .identifier name =>
    discard advance
    return (name, t.position)
  | _ => failExpecting ["identifier"]

/-- Skips a line break in front of the keyword, and tells whether the keyword is next. -/
def skipNewlineBefore (k : Keyword) : Parser Bool := do
  if (← isAt .newline) && (← peekFollowing) == .keyword k then discard advance
  isAt (.keyword k)

end Parser

end DrakeSyntax
