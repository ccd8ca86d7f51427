import DrakeSyntax.Error

/-!
# Diagnostics

A diagnostic shows an error together with the line of the source that it lies on. Five
lines: what is wrong, where it is, an empty margin, the line of the source and a caret
under the place of the error. A tab before that place is kept, so that the caret stands
under it however wide tabs are.
-/

namespace DrakeSyntax.Diagnostic

/-- Blanks. -/
def blanks (n : Nat) : String := String.ofList (List.replicate n ' ')

/-- Whether a line ends in front of the character. -/
def endsLine (c : Char) : Bool := c == '\n' || c == '\r'

/-- The line with the index, counted from zero. A line ends with `\n`, `\r\n` or a lone `\r`, and
behind the last line there are only empty ones. -/
def sourceLine : Nat → List Char → List Char
  | 0, cs => cs.takeWhile fun c => !endsLine c
  | index + 1, cs =>
    match cs.dropWhile fun c => !endsLine c with
    | [] => []
    | '\r' :: '\n' :: rest => sourceLine index rest
    | _ :: rest => sourceLine index rest

/-- The line that an error lies on; an error in front of the first line shows that one. -/
def shownLine (text : String) (p : Position) : List Char := sourceLine (p.line - 1) text.toList

/-- What stands in front of the caret: a tab for a tab, a blank for anything else. -/
def padding (line : List Char) (p : Position) : List Char :=
  (line.take (p.column - 1)).map fun c => if c = '\t' then '\t' else ' '

/-- The width of the margin, which holds the number of the line. -/
def marginWidth (p : Position) : Nat := max 2 (toString p.line).length

/-- The lines of a diagnostic for an error in the source called `name`. -/
def lines (name text : String) (e : SyntaxError) : List String :=
  let p := e.position
  let margin := blanks (marginWidth p)
  let number := toString p.line
  let shown := shownLine text p
  ["error: " ++ e.summary,
    margin ++ "--> " ++ name ++ ":" ++ p.text,
    margin ++ " |",
    blanks (marginWidth p - number.length) ++ number ++ " | " ++ String.ofList shown,
    margin ++ " | " ++ String.ofList (padding shown p) ++ "^"]

/-- A diagnostic, every line with a line break behind it. -/
def render (name text : String) (e : SyntaxError) : String :=
  String.join ((lines name text e).map (· ++ "\n"))

end DrakeSyntax.Diagnostic
