import DrakeSyntax.Grammar.Inner
import DrakeSyntax.Grammar.Longest

/-!
# Types, parameters and targets

The phrases that introduce names: types between angle brackets, declarations, parameters of
lambdas and targets of assignments and loops.
-/

namespace DrakeSyntax.Parser

variable (g : Inner)

/-- A type: a name, perhaps applied to types in brackets. -/
def typeName : Parser TypeHint := do
  let (name, position) ← identifier
  if ← eat (.punctuator .leftBracket) then
    let parameters ← list g.rounds g.type
    discard (expect (.punctuator .rightBracket))
    return ⟨name, parameters.items, position⟩
  else return ⟨name, [], position⟩

/-- A type between angle brackets. -/
def typeHint : Parser TypeHint := do
  discard (expect (.punctuator .less))
  let hint ← typeName g
  discard (expect (.punctuator .greater))
  return hint

/-- A typed name without a value, perhaps constant. -/
def declaration : Parser Node := do
  let start ← peek
  let constant ← eat (.keyword .const)
  let hint ← typeHint g
  let (name, _) ← identifier
  return ⟨.declaration ⟨constant, hint, name⟩, start.position⟩

/-- A parameter that is passed by its place. -/
def positionalParameter : Parser PositionalParameter := do
  let variadic ← eat (.punctuator .star)
  let hint ← typeHint g
  let (name, _) ← identifier
  return ⟨hint, variadic, name⟩

/-- A parameter that is passed by its name. -/
def keywordParameter : Parser KeywordParameter := do
  let collector ← eat (.punctuator .starStar)
  let hint ← typeHint g
  let (name, _) ← identifier
  if collector then return ⟨hint, name, .collector⟩
  else if ← eat (.punctuator .colon) then return ⟨hint, name, .default (← g.expression)⟩
  else return ⟨hint, name, .required⟩

/-- What comes before the body of a lambda. -/
structure LambdaHead where
  positional : List PositionalParameter
  keyword : List KeywordParameter

/-- The parameters of a lambda and the arrow behind them. -/
def lambdaHead : Parser LambdaHead := do
  let (positional, keyword) ←
    twoKindDelimited g.rounds (positionalParameter g) (keywordParameter g)
  discard (expect (.punctuator .arrow))
  return ⟨positional, keyword⟩

/-- The rest of a lambda that begins at `position`. -/
def lambdaBody (head : LambdaHead) (position : Position) : Parser Node := do
  let body ← g.expression
  return ⟨.lambda head.positional head.keyword body, position⟩

/-- The modifier of a target, if it has one. -/
def targetModifier : Parser (Option TargetModifier) := do
  if ← eat (.keyword .nonlocal) then return some .nonlocal
  else if ← eat (.keyword .const) then return some .const
  else return none

/-- A name that is given a value. -/
def target : Parser Target := do
  let start ← peek
  let modifier ← targetModifier
  let hint ← if ← isAt (.punctuator .less) then some <$> typeHint g else pure none
  let (name, _) ← identifier
  return ⟨modifier, hint, name, start.position⟩

/-- Targets in parentheses or a single target, at least one of them; `what` is expected
when there is none. -/
def targets (what : String) : Parser (List Target) := do
  let ts ← delimited g.rounds (target g)
  if ts.isEmpty then failExpecting [what] else return ts

/-- The assignment operator that a token spells. -/
def assignmentOperator? : Token → Option AssignmentOperator
  | .punctuator .assign => some .assign
  | .punctuator .plusEqual => some .addAssign
  | .punctuator .minusEqual => some .subtractAssign
  | .punctuator .starEqual => some .multiplyAssign
  | .punctuator .slashEqual => some .divideAssign
  | .punctuator .percentEqual => some .moduloAssign
  | .punctuator .starStarEqual => some .powerAssign
  | .punctuator .ampersandEqual => some .bitAndAssign
  | .punctuator .barEqual => some .bitOrAssign
  | .punctuator .caretEqual => some .bitXorAssign
  | .punctuator .lessLessEqual => some .shiftLeftAssign
  | .punctuator .greaterGreaterEqual => some .shiftRightAssign
  | _ => none

/-- What comes before the value of an assignment. -/
structure AssignmentHead where
  targets : List Target
  operator : AssignmentOperator
  operatorToken : PlacedToken

/-- The targets of an assignment and the operator behind them. -/
def assignmentHead : Parser AssignmentHead := do
  let ts ← targets g "assignment target"
  let operatorToken ← peek
  match assignmentOperator? operatorToken.token with
  | some operator =>
    discard advance
    return ⟨ts, operator, operatorToken⟩
  | none => failExpecting ["'='", "augmented assignment"]

/-- The rest of an assignment that begins at `position`. A value can be combined with the
old one only for a single name that is not constant. -/
def assignmentValue (head : AssignmentHead) (position : Position) : Parser Node := do
  if head.operator.isAugmented && decide (1 < head.targets.length) then
    rejectAt head.operatorToken "multiple assignment cannot be augmented"
  else if head.operator.isAugmented && head.targets.any (·.modifier == some .const) then
    rejectAt head.operatorToken "const assignment cannot be augmented"
  else
    let value ← g.expression
    return ⟨.assignment head.targets head.operator value, position⟩

end DrakeSyntax.Parser
