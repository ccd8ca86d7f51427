/-!
# Punctuators

Operators and delimiters made of one to three special characters. Many begin another one
(`*`, `**`, `**=`).
-/

namespace DrakeSyntax

/-- The punctuators. -/
inductive Punctuator where
  | leftParen | rightParen | leftBracket | rightBracket | leftBrace | rightBrace
  | comma | colon | dot | dotDot | arrow | assign
  | plus | minus | star | slash | percent | starStar
  | ampersand | bar | caret | lessLess | greaterGreater | exclamation
  | equalEqual | notEqual | less | lessEqual | greater | greaterEqual
  | plusEqual | minusEqual | starEqual | slashEqual | percentEqual | starStarEqual
  | ampersandEqual | barEqual | caretEqual | lessLessEqual | greaterGreaterEqual
  deriving DecidableEq

namespace Punctuator

/-- How the punctuator is written in a source. -/
def spelling : Punctuator → String
  | leftParen => "("
  | rightParen => ")"
  | leftBracket => "["
  | rightBracket => "]"
  | leftBrace => "\x7b"
  | rightBrace => "\x7d"
  | comma => ","
  | colon => ":"
  | dot => "."
  | dotDot => ".."
  | arrow => "->"
  | assign => "="
  | plus => "+"
  | minus => "-"
  | star => "*"
  | slash => "/"
  | percent => "%"
  | starStar => "**"
  | ampersand => "&"
  | bar => "|"
  | caret => "^"
  | lessLess => "<<"
  | greaterGreater => ">>"
  | exclamation => "!"
  | equalEqual => "=="
  | notEqual => "!="
  | less => "<"
  | lessEqual => "<="
  | greater => ">"
  | greaterEqual => ">="
  | plusEqual => "+="
  | minusEqual => "-="
  | starEqual => "*="
  | slashEqual => "/="
  | percentEqual => "%="
  | starStarEqual => "**="
  | ampersandEqual => "&="
  | barEqual => "|="
  | caretEqual => "^="
  | lessLessEqual => "<<="
  | greaterGreaterEqual => ">>="

/-- The name of the punctuator as a value. -/
def name : Punctuator → String
  | leftParen => "LParen"
  | rightParen => "RParen"
  | leftBracket => "LBracket"
  | rightBracket => "RBracket"
  | leftBrace => "LBrace"
  | rightBrace => "RBrace"
  | comma => "Comma"
  | colon => "Colon"
  | dot => "Dot"
  | dotDot => "DotDot"
  | arrow => "Arrow"
  | assign => "Assign"
  | plus => "Plus"
  | minus => "Minus"
  | star => "Star"
  | slash => "Slash"
  | percent => "Percent"
  | starStar => "StarStar"
  | ampersand => "And"
  | bar => "Or"
  | caret => "Xor"
  | lessLess => "LtLt"
  | greaterGreater => "GtGt"
  | exclamation => "Not"
  | equalEqual => "EqEq"
  | notEqual => "NotEq"
  | less => "Lt"
  | lessEqual => "LtEq"
  | greater => "Gt"
  | greaterEqual => "GtEq"
  | plusEqual => "PlusEq"
  | minusEqual => "MinusEq"
  | starEqual => "StarEq"
  | slashEqual => "SlashEq"
  | percentEqual => "PercentEq"
  | starStarEqual => "StarStarEq"
  | ampersandEqual => "AndEq"
  | barEqual => "OrEq"
  | caretEqual => "XorEq"
  | lessLessEqual => "LtLtEq"
  | greaterGreaterEqual => "GtGtEq"

end Punctuator

end DrakeSyntax
