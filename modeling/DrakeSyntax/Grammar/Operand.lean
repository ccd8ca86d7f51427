import DrakeSyntax.Grammar.Enclosed
import DrakeSyntax.Grammar.Longest

/-!
# Operands

An operand is an atom with attributes, calls and indices behind it and unary operators in
front of it.
-/

namespace DrakeSyntax.Parser

variable (g : Inner)

/-- The expression that a token alone is. -/
def atomOf? : Token → Option NodeKind
  | .string value => some (.literal (.string value))
  | .number literal => some (.literal (.number literal))
  | .keyword .true_ => some (.literal (.boolean true))
  | .keyword .false_ => some (.literal (.boolean false))
  | .keyword .none_ => some (.literal .none)
  | .identifier name => some (.identifier name)
  | _ => none

/-- A literal, a name or a phrase in braces, brackets or parentheses. -/
def atom : Parser Node := do
  let start ← peek
  match start.token with
  | .punctuator .leftBrace => brace g
  | .punctuator .leftBracket => bracket g
  | .punctuator .leftParen => paren g
  | t =>
    match atomOf? t with
    | some kind =>
      discard advance
      return ⟨kind, start.position⟩
    | none => failExpecting ["expression"]

/-- An argument that is passed by its name. -/
def keywordArgument : Parser KeywordArgument := do
  let (name, _) ← identifier
  discard (expect (.punctuator .colon))
  return ⟨name, ← g.expression⟩

/-- The trailers behind an atom, at most `rounds` of them. -/
def trailers : (rounds : Nat) → Parser (List Trailer)
  | 0 => return []
  | rounds + 1 => do
    if ← eat (.punctuator .dot) then
      let (name, _) ← identifier
      return .attribute name :: (← trailers rounds)
    else if ← eat (.punctuator .leftParen) then
      let (positional, keyword) ← twoKindList g.rounds g.expression (keywordArgument g)
      discard (expect (.punctuator .rightParen))
      return .call positional keyword :: (← trailers rounds)
    else if ← isAt (.punctuator .leftBracket) then
      let operand ← bracket g
      return .index operand :: (← trailers rounds)
    else return []

/-- An atom and what follows it. -/
def primary : Parser Node := do
  let base ← atom g
  match ← trailers g g.rounds with
  | [] => return base
  | ts => return ⟨.primary base ts, base.position⟩

/-- The unary operator that a token spells. -/
def unaryOperator? : Token → Option UnaryOperator
  | .keyword .not => some .not
  | .punctuator .exclamation => some .invert
  | .punctuator .minus => some .negate
  | _ => none

/-- An operand. -/
def unary : Parser Node := do
  let start ← peek
  match unaryOperator? start.token with
  | some operator =>
    discard advance
    return ⟨.unary operator (← g.unary), start.position⟩
  | none => primary g

end DrakeSyntax.Parser
