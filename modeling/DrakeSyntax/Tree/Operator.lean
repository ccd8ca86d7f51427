/-!
# Operators

Binary operators come in levels; each level binds tighter than the ones before it
(`OperatorLevel.all`). A chain of operators of one level groups to the left or to the right.
-/

namespace DrakeSyntax

/-- The operators between two operands. -/
inductive BinaryOperator where
  | or | xor | and | in_ | notIn | is | isNot
  | less | lessEqual | greater | greaterEqual | equal | notEqual
  | bitOr | bitXor | bitAnd | shiftLeft | shiftRight
  | add | subtract | multiply | divide | modulo | power
  deriving DecidableEq

namespace BinaryOperator

/-- How the operator is written in a source. -/
def symbol : BinaryOperator → String
  | or => "or"
  | xor => "xor"
  | and => "and"
  | in_ => "in"
  | notIn => "not in"
  | is => "is"
  | isNot => "is not"
  | less => "<"
  | lessEqual => "<="
  | greater => ">"
  | greaterEqual => ">="
  | equal => "=="
  | notEqual => "!="
  | bitOr => "|"
  | bitXor => "^"
  | bitAnd => "&"
  | shiftLeft => "<<"
  | shiftRight => ">>"
  | add => "+"
  | subtract => "-"
  | multiply => "*"
  | divide => "/"
  | modulo => "%"
  | power => "**"

/-- The name of the operator as a value. -/
def name : BinaryOperator → String
  | or => "Or"
  | xor => "Xor"
  | and => "And"
  | in_ => "In"
  | notIn => "NotIn"
  | is => "Is"
  | isNot => "IsNot"
  | less => "Less"
  | lessEqual => "LessEqual"
  | greater => "Greater"
  | greaterEqual => "GreaterEqual"
  | equal => "Equal"
  | notEqual => "NotEqual"
  | bitOr => "BitOr"
  | bitXor => "BitXor"
  | bitAnd => "BitAnd"
  | shiftLeft => "ShiftLeft"
  | shiftRight => "ShiftRight"
  | add => "Add"
  | subtract => "Subtract"
  | multiply => "Multiply"
  | divide => "Divide"
  | modulo => "Modulo"
  | power => "Power"

end BinaryOperator

/-- How a chain of operators groups. -/
inductive Associativity where
  /-- To the left; a run of one operator is a single operation on all its operands. -/
  | left
  /-- To the right; every operation has two operands. -/
  | right
  deriving DecidableEq

/-- Operators that bind equally tight. -/
structure OperatorLevel where
  associativity : Associativity
  operators : List BinaryOperator

namespace OperatorLevel

/-- The levels that bind tighter than membership. -/
def belowMembership : List OperatorLevel :=
  [⟨.left, [.is, .isNot]⟩,
    ⟨.left, [.less, .lessEqual, .greater, .greaterEqual, .equal, .notEqual]⟩,
    ⟨.left, [.bitOr]⟩,
    ⟨.left, [.bitXor]⟩,
    ⟨.left, [.bitAnd]⟩,
    ⟨.left, [.shiftLeft, .shiftRight]⟩,
    ⟨.left, [.add, .subtract]⟩,
    ⟨.left, [.multiply, .divide]⟩,
    ⟨.left, [.modulo]⟩,
    ⟨.right, [.power]⟩]

/-- All levels, the loosest first. -/
def all : List OperatorLevel :=
  ⟨.right, [.or]⟩ :: ⟨.right, [.xor]⟩ :: ⟨.right, [.and]⟩ :: ⟨.left, [.in_, .notIn]⟩
    :: belowMembership

end OperatorLevel

/-- The operators in front of an operand. -/
inductive UnaryOperator where
  | not | invert | negate
  deriving DecidableEq

/-- The name of the operator as a value. -/
def UnaryOperator.name : UnaryOperator → String
  | not => "Not"
  | invert => "Invert"
  | negate => "Negate"

/-- The operators that give a name a value. -/
inductive AssignmentOperator where
  | assign | addAssign | subtractAssign | multiplyAssign | divideAssign | moduloAssign
  | powerAssign | bitAndAssign | bitOrAssign | bitXorAssign | shiftLeftAssign
  | shiftRightAssign
  deriving DecidableEq

namespace AssignmentOperator

/-- The name of the operator as a value. -/
def name : AssignmentOperator → String
  | assign => "Assign"
  | addAssign => "AddAssign"
  | subtractAssign => "SubtractAssign"
  | multiplyAssign => "MultiplyAssign"
  | divideAssign => "DivideAssign"
  | moduloAssign => "ModuloAssign"
  | powerAssign => "PowerAssign"
  | bitAndAssign => "BitAndAssign"
  | bitOrAssign => "BitOrAssign"
  | bitXorAssign => "BitXorAssign"
  | shiftLeftAssign => "ShiftLeftAssign"
  | shiftRightAssign => "ShiftRightAssign"

/-- Whether the operator combines the new value with the old one. -/
def isAugmented (op : AssignmentOperator) : Bool := op ≠ assign

end AssignmentOperator

end DrakeSyntax
