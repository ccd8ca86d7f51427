import DrakeSyntax.Error
import DrakeSyntax.Token.Datum

/-!
# Errors as data
-/

namespace DrakeSyntax

/-- A fault as a datum. -/
def LexFault.datum : LexFault → Datum
  | unexpectedCharacter c => .tagged "UnexpectedCharacter" (.text c.toString)
  | unterminatedString => .variant "UnterminatedString"
  | unterminatedComment => .variant "UnterminatedComment"
  | invalidDigit c base =>
    .taggedRecord "InvalidDigit" [("digit", .text c.toString), ("base", .text base.word)]
  | missingDigits base => .taggedRecord "MissingDigits" [("base", .text base.word)]
  | misplacedSeparator => .variant "MisplacedSeparator"
  | missingExponent => .variant "MissingExponent"

/-- An error of either kind as a datum. -/
def SyntaxError.datum : SyntaxError → Datum
  | lex e =>
    .tagged "Lex" (.record "LexError" [("kind", e.fault.datum), ("position", e.position.datum)])
  | parse e =>
    .tagged "Parse" (.record "ParseError"
      [("position", e.position.datum), ("expected", .ofList .text e.expected),
        ("found", .text e.found), ("message", .ofOption .text e.note)])

end DrakeSyntax
