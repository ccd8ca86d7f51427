import DrakeSyntax.Grammar.Inner
import DrakeSyntax.Grammar.ItemList

/-!
# Phrases in brackets, braces and parentheses

Brackets hold a list or a range, braces a mapping or a block, parentheses a tuple or a
single expression. A bracketed phrase is reached more than once when the phrases around it
are tried in several ways, so its outcome is remembered (`Parser.remembered`).
-/

namespace DrakeSyntax.Parser

variable (g : Inner)

/-- Runs a parser once for every cursor: when it was run at this cursor before, its outcome
then is its outcome now. -/
def remembered (p : Parser Node) : Parser Node := fun s =>
  match s.brackets[s.cursor.index]? with
  | some ⟨.ok node, cursor⟩ => .ok node { s with cursor }
  | some ⟨.error e, cursor⟩ => .error e { s with cursor }
  | none =>
    match p s with
    | .ok node s' =>
      .ok node { s' with brackets := s'.brackets.insert s.cursor.index ⟨.ok node, s'.cursor⟩ }
    | .error e s' =>
      .error e { s' with brackets := s'.brackets.insert s.cursor.index ⟨.error e, s'.cursor⟩ }

/-- The rest of a bracketed list that begins at `position`. -/
def bracketItems (position : Position) (items : Parser (ItemList Node)) : Parser Node := do
  let l ← items
  discard (expect (.punctuator .rightBracket))
  return ⟨.list (.items l.items), position⟩

/-- Whether the cursor is where an item between brackets can end. -/
def isAtItemEnd : Parser Bool := do
  match (← peek).token with
  | .punctuator .comma | .punctuator .rightBracket | .newline => return true
  | _ => return false

/-- The rest of a range, behind the two dots. -/
def rangeBehind (start : Node) (position : Position) : Parser Node := do
  let stop ← if ← isAtItemEnd then pure none else some <$> g.unary
  let step ←
    if ← eat (.punctuator .comma) then do
      discard (eat .newline)
      some <$> g.unary
    else pure none
  discard (eat .newline)
  discard (expect (.punctuator .rightBracket))
  return ⟨.list (.range start stop step), position⟩

/-- A bracketed phrase. An operand with two dots behind it is the start of a range; an
operand with the end of an item behind it is the first item of a list; otherwise the first
item is more than an operand and is read anew. -/
def bracketContents : Parser Node := do
  let position ← expect (.punctuator .leftBracket)
  discard (eat .newline)
  let start ← mark
  if (← peek).token.closesList then bracketItems position (list g.rounds g.expression)
  else
    match ← attempt g.unary with
    | .error _ => bracketItems position (list g.rounds g.expression)
    | .ok first =>
      if ← eat (.punctuator .dotDot) then rangeBehind g first position
      else if ← isAtItemEnd then bracketItems position (listBehind g.rounds first g.expression)
      else
        reset start
        bracketItems position (list g.rounds g.expression)

/-- A bracketed phrase, read at most once. -/
def bracket : Parser Node :=
  if g.remembers then remembered (bracketContents g) else bracketContents g

/-- A key and its value. -/
def pair : Parser Pair := do
  let key ← g.expression
  discard (expect (.punctuator .colon))
  return ⟨key, ← g.expression⟩

/-- A phrase in braces: a mapping if a colon follows the first expression, a block
otherwise. -/
def brace : Parser Node := do
  let position ← expect (.punctuator .leftBrace)
  discard (eat .newline)
  if ← eat (.punctuator .rightBrace) then return ⟨.block [], position⟩
  else
    let first ← g.expression
    if ← eat (.punctuator .colon) then
      let value ← g.expression
      let pairs ← listBehind g.rounds ⟨first, value⟩ (pair g)
      discard (expect (.punctuator .rightBrace))
      return ⟨.mapping pairs.items, position⟩
    else
      let items ← listBehind g.rounds first g.expression
      discard (expect (.punctuator .rightBrace))
      return ⟨.block items.items, position⟩

/-- The expressions of a block. -/
def blockItems : Parser (List Node) := do
  discard (expect (.punctuator .leftBrace))
  let items ← list g.rounds g.expression
  discard (expect (.punctuator .rightBrace))
  return items.items

/-- A block. -/
def block : Parser Node := do
  let start ← peek
  return ⟨.block (← blockItems g), start.position⟩

/-- A list in parentheses and the position of the opening one. -/
def parenthesized : Parser (ItemList Node × Position) := do
  let position ← expect (.punctuator .leftParen)
  let items ← list g.rounds g.expression
  discard (expect (.punctuator .rightParen))
  return (items, position)

/-- A phrase in parentheses: a single expression without a comma behind it stands for
itself, anything else is a tuple. -/
def paren : Parser Node := do
  match ← parenthesized g with
  | (⟨[item], false⟩, _) => return item
  | (⟨items, _⟩, position) => return ⟨.tuple items, position⟩

/-- A phrase in parentheses that is a tuple in any case. -/
def tuple : Parser Node := do
  let (items, position) ← parenthesized g
  return ⟨.tuple items.items, position⟩

end DrakeSyntax.Parser
