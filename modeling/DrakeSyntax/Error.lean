import DrakeSyntax.Token

/-!
# Errors

Reading a source fails in two ways: its characters form no token (`LexError`) or its
tokens form no program (`ParseError`). Either error names the place where reading stopped.

* `SyntaxError.summary` is the wording of an error.
* `SyntaxError.message` adds its kind and its position.
-/

namespace DrakeSyntax

/-- What is wrong with a sequence of characters. -/
inductive LexFault where
  /-- No token begins with the character. -/
  | unexpectedCharacter (c : Char)
  /-- A string literal does not end on its line. -/
  | unterminatedString
  /-- A block comment does not end. -/
  | unterminatedComment
  /-- A number literal holds a character that is no digit of its base. -/
  | invalidDigit (c : Char) (base : NumberBase)
  /-- No digit follows the mark of a base. -/
  | missingDigits (base : NumberBase)
  /-- A separator does not stand between two digits. -/
  | misplacedSeparator
  /-- No digit follows the mark of an exponent. -/
  | missingExponent
  deriving DecidableEq

/-- The wording of a fault. -/
def LexFault.message : LexFault → String
  | unexpectedCharacter c => "unexpected character '" ++ c.toString ++ "'"
  | unterminatedString => "unterminated string literal"
  | unterminatedComment => "unterminated block comment"
  | invalidDigit c base => "invalid digit '" ++ c.toString ++ "' in " ++ base.word ++ " literal"
  | missingDigits base => base.word ++ " literal has no digits"
  | misplacedSeparator => "digit separator '_' must sit between two digits"
  | missingExponent => "exponent has no digits"

/-- The character that a fault complains about, if it complains about one. -/
def LexFault.character? : LexFault → Option Char
  | unexpectedCharacter c => some c
  | invalidDigit c _ => some c
  | _ => none

/-- Characters that form no token. -/
structure LexError where
  fault : LexFault
  position : Position
  deriving DecidableEq

/-- The wording of the error with its position. -/
def LexError.message (e : LexError) : String := e.fault.message ++ " at " ++ e.position.text

/-- Tokens that form no program. A structural error has a `note` of its own; any other one
lists what could have stood in place of the token that was found. -/
structure ParseError where
  position : Position
  expected : List String
  found : String
  note : Option String
  deriving DecidableEq

namespace ParseError

/-- The token `t` stands where one of `expected` should. -/
def unexpected (expected : List String) (t : PlacedToken) : ParseError :=
  ⟨t.position, expected, t.token.describe, none⟩

/-- The structure of the program is wrong at the token `t`. -/
def structural (note : String) (t : PlacedToken) : ParseError :=
  ⟨t.position, [], t.token.describe, some note⟩

/-- The choices of an enumeration, the last one behind an "or". -/
def alternatives : List String → String
  | [] => ""
  | [choice] => choice
  | [choice, last] => choice ++ " or " ++ last
  | choice :: choices => choice ++ ", " ++ alternatives choices

/-- The wording of the error without its position. -/
def summary (e : ParseError) : String :=
  match e.note, e.expected with
  | some note, _ => note
  | none, [] => "unexpected " ++ e.found
  | none, choices => "expected " ++ alternatives choices ++ ", found " ++ e.found

/-- The wording of the error with its position. -/
def message (e : ParseError) : String := e.summary ++ " at " ++ e.position.text

end ParseError

/-- The two kinds of error. -/
inductive SyntaxError where
  | lex (e : LexError)
  | parse (e : ParseError)
  deriving DecidableEq

namespace SyntaxError

/-- The wording of the error without its position. -/
def summary : SyntaxError → String
  | lex e => e.fault.message
  | parse e => e.summary

/-- Where the error lies. -/
def position : SyntaxError → Position
  | lex e => e.position
  | parse e => e.position

/-- The wording of the error with its kind and its position. -/
def message : SyntaxError → String
  | lex e => "lex error: " ++ e.message
  | parse e => "parse error: " ++ e.message

end SyntaxError

end DrakeSyntax
