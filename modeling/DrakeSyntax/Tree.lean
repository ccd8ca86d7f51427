import DrakeSyntax.Token
import DrakeSyntax.Tree.Operator

/-!
# Syntax trees

A program is a sequence of expressions. Every node of an expression has the position of its
first token; so have type hints, targets, catch clauses and enumeration members.
-/

namespace DrakeSyntax

/-- A constant written in the source. -/
inductive Literal where
  | string (value : String)
  | number (literal : NumberLiteral)
  | boolean (value : Bool)
  | none
  deriving DecidableEq

/-- A type: a name and perhaps types that it is applied to. -/
structure TypeHint where
  name : String
  parameters : List TypeHint
  position : Position

namespace TypeHint

mutual

/-- A type is written `Name` or `Name[First, Second]`. -/
def text : TypeHint → String
  | mk name [] _ => name
  | mk name (p :: ps) _ => name ++ "[" ++ ", ".intercalate (texts (p :: ps)) ++ "]"

/-- The types of a list, as they are written. -/
def texts : List TypeHint → List String
  | [] => []
  | t :: ts => t.text :: texts ts

end

end TypeHint

/-- What an assignment does with a name beyond giving it a value. -/
inductive TargetModifier where
  /-- The name belongs to an enclosing scope. -/
  | nonlocal
  /-- The name keeps its value. -/
  | const
  deriving DecidableEq

/-- The name of the modifier as a value. -/
def TargetModifier.name : TargetModifier → String
  | nonlocal => "Nonlocal"
  | const => "Const"

/-- A name that an assignment or a loop gives values to. -/
structure Target where
  modifier : Option TargetModifier
  typeHint : Option TypeHint
  name : String
  position : Position

/-- A typed name without a value. -/
structure Declaration where
  constant : Bool
  typeHint : TypeHint
  name : String

/-- A parameter that is passed by its place. A variadic one collects all arguments that are
left. -/
structure PositionalParameter where
  typeHint : TypeHint
  variadic : Bool
  name : String

/-- A member of an enumeration. -/
structure EnumMember where
  name : String
  value : Option NumberLiteral
  position : Position

mutual

/-- An expression and the position of its first token. -/
structure Node where
  kind : NodeKind
  position : Position

/-- The kinds of expression. -/
inductive NodeKind where
  | literal (value : Literal)
  | identifier (name : String)
  | declaration (value : Declaration)
  | assignment (targets : List Target) (operator : AssignmentOperator) (value : Node)
  | binary (operator : BinaryOperator) (operands : List Node)
  | unary (operator : UnaryOperator) (operand : Node)
  /-- An atom with attributes, calls and indices behind it. -/
  | primary (base : Node) (trailers : List Trailer)
  | lambda (positional : List PositionalParameter) (keyword : List KeywordParameter) (body : Node)
  | conditional (condition consequence : Node) (otherwise : Option Node)
  | case (subject : Node) (branches : List Pair) (otherwise : Option Node)
  | try_ (body : Node) (handlers : List CatchClause) (cleanup : Option Node)
  | for_ (targets : List Target) (iterable body : Node)
  | while_ (condition body : Node)
  | iter (operand : Node)
  | do_ (items : List Node)
  | object (items : List Node)
  | module_ (items : List Node)
  | exception (items : List Node)
  | enum (flags : Bool) (members : List EnumMember)
  | mutable (operand : Node)
  | throw (value : Node)
  | return_ (value : Option Node)
  | yield (value : Option Node)
  | yieldFrom (source : Node)
  | break_
  | continue_
  | pass
  | mapping (pairs : List Pair)
  | list (content : ListLiteral)
  | tuple (items : List Node)
  | block (items : List Node)

/-- A key and its value. -/
structure Pair where
  key : Node
  value : Node

/-- What follows an atom: an attribute, a call or an index. -/
inductive Trailer where
  | attribute (name : String)
  | call (positional : List Node) (keyword : List KeywordArgument)
  | index (operand : Node)

/-- An argument that is passed by its name. -/
structure KeywordArgument where
  name : String
  value : Node

/-- A parameter that is passed by its name. -/
structure KeywordParameter where
  typeHint : TypeHint
  name : String
  kind : KeywordParameterKind

/-- How a parameter that is passed by its name gets a value. -/
inductive KeywordParameterKind where
  | required
  | default (value : Node)
  /-- The parameter collects all named arguments that are left. -/
  | collector

/-- A handler of exceptions of a type, which may give the exception a name. -/
structure CatchClause where
  exceptionType : String
  binding : Option String
  handler : Node
  position : Position

/-- What stands between brackets: expressions, or the start, the end and the step of a
range. -/
inductive ListLiteral where
  | items (items : List Node)
  | range (start : Node) (stop step : Option Node)

end

/-- A source text as a sequence of expressions. -/
structure Program where
  body : List Node

end DrakeSyntax
