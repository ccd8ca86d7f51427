import DrakeSyntax.Datum.Json
import DrakeSyntax.Datum.Labelled
import DrakeSyntax.Grammar.Expression
import DrakeSyntax.Text.Whitespace
import DrakeSyntax.Tree.Datum

/-!
# Rendered results

What is made of a source, its tokens or its program, is rendered for people or as JSON.
Tokens for people are a listing with one line for each.
-/

namespace DrakeSyntax

/-- What is made of a source. -/
inductive Artefact where
  | tokens | program
  deriving DecidableEq

/-- How it is rendered. -/
inductive RenderFormat where
  /-- For people. -/
  | plain
  | json
  deriving DecidableEq

/-- Fills a text up with blanks on the right. -/
def fillRight (width : Nat) (s : String) : String :=
  s ++ String.ofList (List.replicate (width - s.length) ' ')

/-- The line of a token in a listing. -/
def PlacedToken.line (t : PlacedToken) : String :=
  fillRight 8 t.position.text ++ t.token.describe

/-- One line for each token. The white space at the end is taken away, the last line break with
it. -/
def tokenListing (ts : List PlacedToken) : String :=
  Text.trimEnd (String.join (ts.map fun t => t.line ++ "\n"))

/-- Tokens in a format. -/
def renderTokens (ts : List PlacedToken) : RenderFormat → String
  | .plain => tokenListing ts
  | .json => (Datum.ofList PlacedToken.datum ts).json.pretty

/-- A program in a format. -/
def Program.render (p : Program) : RenderFormat → String
  | .plain => p.datum.labelledLines
  | .json => p.datum.json.pretty

/-- Reads a text and renders what is made of it. -/
def render (artefact : Artefact) (format : RenderFormat) (text : String) :
    Except SyntaxError String :=
  match artefact with
  | .tokens => return renderTokens (← (tokenize text).mapError .lex) format
  | .program => return (← parse text).render format

end DrakeSyntax
