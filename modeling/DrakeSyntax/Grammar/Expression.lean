import DrakeSyntax.Grammar.Form
import DrakeSyntax.Token.Stream

/-!
# Expressions and programs

An expression is a form that begins with a keyword, a lambda, an assignment, a declaration
or operands with operators between them. Lambdas and assignments are recognised by trying
to read what comes before their arrow or operator; the trial leaves the cursor alone if it
fails.

* `Parser.expression` and `Parser.program` read from any state.
* `parse` reads a text.
-/

namespace DrakeSyntax

namespace Parser

variable (g : Inner)

/-- Whether a lambda can begin with the token. -/
def startsLambda : Token → Bool
  | .punctuator .leftParen | .punctuator .less | .punctuator .star | .punctuator .starStar => true
  | _ => false

/-- Whether a target can begin with the token. -/
def startsTarget : Token → Bool
  | .punctuator .leftParen | .punctuator .less | .identifier _ | .keyword .const
  | .keyword .nonlocal => true
  | _ => false

/-- An expression that is no lambda and no assignment. After `nonlocal` only an assignment is
possible. -/
def plainExpression (start : PlacedToken) : Parser Node := do
  match start.token with
  | .keyword .const | .punctuator .less => declaration g
  | .keyword .nonlocal => assignmentValue g (← assignmentHead g) start.position
  | _ => cascade g.rounds (unary g) OperatorLevel.all

/-- An expression that is no keyword form. -/
def openExpression (start : PlacedToken) : Parser Node := do
  match ← attemptIf (startsLambda start.token) (lambdaHead g) with
  | some head => lambdaBody g head start.position
  | none =>
    match ← attemptIf (startsTarget start.token) (assignmentHead g) with
    | some head => assignmentValue g head start.position
    | none => plainExpression g start

/-- The keyword form that begins with a token, if one does. -/
def formAt? : Token → Option (Parser Node)
  | .keyword k => form? g k
  | _ => none

/-- An expression made of the phrases of `g`. -/
def expressionWith : Parser Node := do
  let start ← peek
  match formAt? g start.token with
  | some form => form
  | none => openExpression g start

/-- A program made of the phrases of `g`: a list of expressions up to the end of the
input. -/
def programWith : Parser Program := do
  let l ← list g.rounds g.expression
  if ← isAt .endOfInput then return ⟨l.items⟩
  else failExpecting ["','", "newline", "end of input"]

end Parser

/-- The phrases made of the phrases of `g`. -/
def Inner.deepen (g : Inner) : Inner where
  rounds := g.rounds + 1
  remembers := g.remembers
  expression := Parser.expressionWith g
  unary := Parser.unary g
  type := Parser.typeName g

/-- The phrases with those of `g` at a depth. -/
def Inner.nest (g : Inner) : (depth : Nat) → Inner
  | 0 => g
  | depth + 1 => (g.nest depth).deepen

/-- The phrases that can stand among the tokens from the cursor on. -/
def Cursor.phrases (c : Cursor) (remembers : Bool) : Inner :=
  (Inner.none remembers).nest (c.rest.length + 1)

namespace Parser

/-- Reads one expression. -/
def expression : Parser Node := fun s => (s.cursor.phrases true).expression s

/-- Reads a program, up to the end of the input. -/
def program : Parser Program := fun s => programWith (s.cursor.phrases true) s

end Parser

/-- Reads a program from tokens. -/
def parseTokens (ts : List PlacedToken) : Except ParseError Program :=
  match Parser.program (.ofTokens ts) with
  | .ok p _ => .ok p
  | .error e _ => .error e

/-- Reads a program from a text. -/
def parse (text : String) : Except SyntaxError Program := do
  let ts ← (tokenize text).mapError .lex
  (parseTokens ts).mapError .parse

end DrakeSyntax
