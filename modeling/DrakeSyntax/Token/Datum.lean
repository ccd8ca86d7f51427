import DrakeSyntax.Datum
import DrakeSyntax.Token

/-!
# Tokens as data
-/

namespace DrakeSyntax

/-- A position as a datum. -/
def Position.datum (p : Position) : Datum :=
  .record "SourcePosition"
    [("line", .natural p.line), ("column", .natural p.column), ("offset", .natural p.offset)]

/-- A number literal as a datum. -/
def NumberLiteral.datum (n : NumberLiteral) : Datum :=
  .record "NumberLiteral" [("text", .text n.text), ("base", .variant n.base.name)]

/-- A token as a datum. -/
def Token.datum : Token → Datum
  | identifier name => .tagged "Identifier" (.text name)
  | keyword word => .tagged "Keyword" (.variant word.name)
  | string value => .tagged "String" (.text value)
  | number literal => .tagged "Number" literal.datum
  | punctuator mark => .tagged "Punctuator" (.variant mark.name)
  | newline => .variant "Newline"
  | endOfInput => .variant "EOF"

/-- A placed token as a datum. -/
def PlacedToken.datum (t : PlacedToken) : Datum :=
  .record "SpannedToken" [("token", t.token.datum), ("position", t.position.datum)]

end DrakeSyntax
