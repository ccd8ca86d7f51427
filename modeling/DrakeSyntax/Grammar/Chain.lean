import DrakeSyntax.Grammar.Parser

/-!
# Chains of operators

A level of operators reads its operands with the levels that bind tighter, then groups them
(`OperatorLevel.group`). Grouping does not read anything; it turns the first operand and the
operators with the operands behind them into a node.
-/

namespace DrakeSyntax

namespace OperatorLevel

/-- Groups to the left, `run` being the operands of `operator` so far. When the operator
changes, the run becomes the first operand of the next one. -/
def groupRun (position : Position) (operator : BinaryOperator) (run : List Node) :
    List (BinaryOperator × Node) → Node
  | [] => ⟨.binary operator run, position⟩
  | (next, operand) :: rest =>
    if next = operator then groupRun position operator (run ++ [operand]) rest
    else groupRun position next [⟨.binary operator run, position⟩, operand] rest

/-- Groups a chain to the left. All its nodes have the position of the first operand. -/
def groupLeft (first : Node) : List (BinaryOperator × Node) → Node
  | [] => first
  | (operator, operand) :: rest => groupRun first.position operator [first, operand] rest

/-- Groups a chain to the right. -/
def groupRight (first : Node) : List (BinaryOperator × Node) → Node
  | [] => first
  | (operator, operand) :: rest =>
    ⟨.binary operator [first, groupRight operand rest], first.position⟩

/-- Groups a chain as the level says. -/
def group (level : OperatorLevel) (first : Node) (rest : List (BinaryOperator × Node)) : Node :=
  match level.associativity with
  | .left => groupLeft first rest
  | .right => groupRight first rest

end OperatorLevel

/-- The binary operator that a token and the one behind it spell, and how many of the two
belong to it. -/
def BinaryOperator.ofTokens? (current following : Token) : Option (BinaryOperator × Nat) :=
  match current with
  | .keyword .or => some (.or, 1)
  | .keyword .xor => some (.xor, 1)
  | .keyword .and => some (.and, 1)
  | .keyword .in_ => some (.in_, 1)
  | .keyword .not => if following = .keyword .in_ then some (.notIn, 2) else none
  | .keyword .is => if following = .keyword .not then some (.isNot, 2) else some (.is, 1)
  | .punctuator .less => some (.less, 1)
  | .punctuator .lessEqual => some (.lessEqual, 1)
  | .punctuator .greater => some (.greater, 1)
  | .punctuator .greaterEqual => some (.greaterEqual, 1)
  | .punctuator .equalEqual => some (.equal, 1)
  | .punctuator .notEqual => some (.notEqual, 1)
  | .punctuator .bar => some (.bitOr, 1)
  | .punctuator .caret => some (.bitXor, 1)
  | .punctuator .ampersand => some (.bitAnd, 1)
  | .punctuator .lessLess => some (.shiftLeft, 1)
  | .punctuator .greaterGreater => some (.shiftRight, 1)
  | .punctuator .plus => some (.add, 1)
  | .punctuator .minus => some (.subtract, 1)
  | .punctuator .star => some (.multiply, 1)
  | .punctuator .slash => some (.divide, 1)
  | .punctuator .percent => some (.modulo, 1)
  | .punctuator .starStar => some (.power, 1)
  | _ => none

namespace Parser

/-- Takes as many tokens as given. -/
def advanceBy : Nat → Parser Unit
  | 0 => return
  | n + 1 => do
    discard advance
    advanceBy n

/-- Takes the binary operator at the cursor if it is one of `operators`. -/
def operatorAmong (operators : List BinaryOperator) : Parser (Option BinaryOperator) := do
  match BinaryOperator.ofTokens? (← peek).token (← peekFollowing) with
  | some (operator, width) =>
    if operator ∈ operators then
      advanceBy width
      return some operator
    else return none
  | none => return none

/-- Reads operators with the operands behind them, at most `rounds` of them. -/
def chainRest (operators : List BinaryOperator) (operand : Parser Node) :
    (rounds : Nat) → Parser (List (BinaryOperator × Node))
  | 0 => return []
  | rounds + 1 => do
    match ← operatorAmong operators with
    | some operator =>
      let right ← operand
      return (operator, right) :: (← chainRest operators operand rounds)
    | none => return []

/-- An expression with the operators of one level. -/
def chain (rounds : Nat) (level : OperatorLevel) (operand : Parser Node) : Parser Node := do
  let first ← operand
  return level.group first (← chainRest level.operators operand rounds)

/-- An expression with the operators of several levels, the loosest first. -/
def cascade (rounds : Nat) (operand : Parser Node) : List OperatorLevel → Parser Node
  | [] => operand
  | level :: levels => chain rounds level (cascade rounds operand levels)

end Parser

end DrakeSyntax
