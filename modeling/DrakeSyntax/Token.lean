import DrakeSyntax.Position
import DrakeSyntax.Text.Quoted
import DrakeSyntax.Token.Keyword
import DrakeSyntax.Token.Number
import DrakeSyntax.Token.Punctuator

/-!
# Tokens

A source is read as a sequence of tokens, each with the position of its first character.
A run of line breaks is one token, and the end of the source is one too.
-/

namespace DrakeSyntax

/-- What the characters of a source stand for. -/
inductive Token where
  | identifier (name : String)
  | keyword (word : Keyword)
  /-- A string literal; the value has its escapes resolved. -/
  | string (value : String)
  | number (literal : NumberLiteral)
  | punctuator (mark : Punctuator)
  | newline
  | endOfInput
  deriving DecidableEq

/-- How a token is called in an error. -/
def Token.describe : Token → String
  | identifier name => "identifier '" ++ name ++ "'"
  | keyword word => "keyword '" ++ word.spelling ++ "'"
  | string value => "string " ++ Text.quoted value
  | number literal => "number '" ++ literal.display ++ "'"
  | punctuator mark => "'" ++ mark.spelling ++ "'"
  | newline => "newline"
  | endOfInput => "end of input"

/-- A token and the position of its first character. -/
structure PlacedToken where
  token : Token
  position : Position
  deriving DecidableEq

end DrakeSyntax
