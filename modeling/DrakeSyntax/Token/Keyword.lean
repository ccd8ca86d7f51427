/-!
# Keywords

A keyword is a word that cannot be a name. It is spelled in lower case; where it is shown
as a value it carries its spelling with a capital letter.
-/

namespace DrakeSyntax

/-- The keywords. -/
inductive Keyword where
  | and | as_ | break_ | case | catch_ | const | continue_ | do_ | else_ | enum | exception
  | false_ | finally_ | flags | for_ | from_ | if_ | in_ | is | iter | module_ | mutable | none_
  | nonlocal | not | object | or | pass | return_ | then_ | throw | true_ | try_ | while_ | xor
  | yield
  deriving DecidableEq

namespace Keyword

/-- How the keyword is written in a source. -/
def spelling : Keyword → String
  | and => "and"
  | as_ => "as"
  | break_ => "break"
  | case => "case"
  | catch_ => "catch"
  | const => "const"
  | continue_ => "continue"
  | do_ => "do"
  | else_ => "else"
  | enum => "enum"
  | exception => "exception"
  | false_ => "false"
  | finally_ => "finally"
  | flags => "flags"
  | for_ => "for"
  | from_ => "from"
  | if_ => "if"
  | in_ => "in"
  | is => "is"
  | iter => "iter"
  | module_ => "module"
  | mutable => "mutable"
  | none_ => "none"
  | nonlocal => "nonlocal"
  | not => "not"
  | object => "object"
  | or => "or"
  | pass => "pass"
  | return_ => "return"
  | then_ => "then"
  | throw => "throw"
  | true_ => "true"
  | try_ => "try"
  | while_ => "while"
  | xor => "xor"
  | yield => "yield"

/-- The name of the keyword as a value. -/
def name (k : Keyword) : String := k.spelling.capitalize

/-- The keyword that a word is read as, if it is one. -/
def ofWord? : String → Option Keyword
  | "and" => some and
  | "as" => some as_
  | "break" => some break_
  | "case" => some case
  | "catch" => some catch_
  | "const" => some const
  | "continue" => some continue_
  | "do" => some do_
  | "else" => some else_
  | "enum" => some enum
  | "exception" => some exception
  | "false" => some false_
  | "finally" => some finally_
  | "flags" => some flags
  | "for" => some for_
  | "from" => some from_
  | "if" => some if_
  | "in" => some in_
  | "is" => some is
  | "iter" => some iter
  | "module" => some module_
  | "mutable" => some mutable
  | "none" => some none_
  | "nonlocal" => some nonlocal
  | "not" => some not
  | "object" => some object
  | "or" => some or
  | "pass" => some pass
  | "return" => some return_
  | "then" => some then_
  | "throw" => some throw
  | "true" => some true_
  | "try" => some try_
  | "while" => some while_
  | "xor" => some xor
  | "yield" => some yield
  | _ => none

end Keyword

end DrakeSyntax
