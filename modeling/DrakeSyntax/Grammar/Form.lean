import DrakeSyntax.Grammar.Binding
import DrakeSyntax.Grammar.Chain
import DrakeSyntax.Grammar.Operand

/-!
# Forms that begin with a keyword

Conditionals, branch tables, exception handling, loops, blocks with a purpose, enumerations
and jumps. A line break may stand in front of `then`, `else`, `catch` and `finally`.
-/

namespace DrakeSyntax.Parser

variable (g : Inner)

/-- The expression behind an `else`, if there is one. -/
def elseBranch : Parser (Option Node) := do
  if ← skipNewlineBefore .else_ then
    discard advance
    some <$> g.expression
  else return none

/-- A conditional expression. -/
def conditional : Parser Node := do
  let position ← expect (.keyword .if_)
  let condition ← g.expression
  discard (skipNewlineBefore .then_)
  discard (expect (.keyword .then_))
  let consequence ← g.expression
  return ⟨.conditional condition consequence (← elseBranch g), position⟩

/-- The branches of a branch table. An empty one is read as a block. -/
def branches : Parser (List Pair) := do
  let start ← peek
  if start.token = .punctuator .leftBrace then
    match (← brace g).kind with
    | .mapping pairs => return pairs
    | .block [] => return []
    | _ => rejectAt start "case requires a mapping of branches"
  else failExpecting ["'\x7b'"]

/-- A branch table lookup. Its subject leaves `in` to the form. -/
def caseForm : Parser Node := do
  let position ← expect (.keyword .case)
  let subject ← cascade g.rounds (unary g) OperatorLevel.belowMembership
  discard (expect (.keyword .in_))
  let pairs ← branches g
  return ⟨.case subject pairs (← elseBranch g), position⟩

/-- The name given to a caught exception, if it is given one. -/
def catchBinding : Parser (Option String) := do
  if ← eat (.keyword .as_) then return some (← identifier).1 else return none

/-- The handlers of a form, at most `rounds` of them. -/
def handlers : (rounds : Nat) → Parser (List CatchClause)
  | 0 => return []
  | rounds + 1 => do
    if ← skipNewlineBefore .catch_ then
      let position := (← advance).position
      let (exceptionType, _) ← identifier
      let binding ← catchBinding
      let handler ← g.expression
      return ⟨exceptionType, binding, handler, position⟩ :: (← handlers rounds)
    else return []

/-- The expression behind a `finally`, if there is one. -/
def finallyBranch : Parser (Option Node) := do
  if ← skipNewlineBefore .finally_ then
    discard advance
    some <$> g.expression
  else return none

/-- Exception handling, with a handler or a `finally` at least. -/
def tryForm : Parser Node := do
  let position ← expect (.keyword .try_)
  let body ← g.expression
  let hs ← handlers g g.rounds
  let cleanup ← finallyBranch g
  if hs.isEmpty && cleanup.isNone then reject "try requires catch or finally"
  else return ⟨.try_ body hs cleanup, position⟩

/-- A loop over the values of an expression. -/
def forLoop : Parser Node := do
  let position ← expect (.keyword .for_)
  let ts ← targets g "loop target"
  discard (expect (.keyword .in_))
  let iterable ← g.expression
  return ⟨.for_ ts iterable (← block g), position⟩

/-- A loop under a condition. -/
def whileLoop : Parser Node := do
  let position ← expect (.keyword .while_)
  let condition ← g.expression
  return ⟨.while_ condition (← block g), position⟩

/-- A lazy iteration over a list or a loop. -/
def iterForm : Parser Node := do
  let position ← expect (.keyword .iter)
  let operand ←
    match (← peek).token with
    | .punctuator .leftBracket => bracket g
    | .keyword .for_ => forLoop g
    | .keyword .while_ => whileLoop g
    | _ => failExpecting ["'['", "keyword 'for'", "keyword 'while'"]
  return ⟨.iter operand, position⟩

/-- A keyword with a block behind it. -/
def blockForm (k : Keyword) (kind : List Node → NodeKind) : Parser Node := do
  let position ← expect (.keyword k)
  return ⟨kind (← blockItems g), position⟩

/-- A member of an enumeration. -/
def enumMember : Parser EnumMember := do
  let (name, position) ← identifier
  if ← eat (.punctuator .assign) then
    match (← peek).token with
    | .number literal =>
      discard advance
      return ⟨name, some literal, position⟩
    | _ => failExpecting ["number"]
  else return ⟨name, none, position⟩

/-- An enumeration. -/
def enumForm : Parser Node := do
  let position ← expect (.keyword .enum)
  let flags ← eat (.keyword .flags)
  discard (expect (.punctuator .leftBrace))
  let members ← list g.rounds enumMember
  discard (expect (.punctuator .rightBrace))
  return ⟨.enum flags members.items, position⟩

/-- A phrase in braces that can be made mutable: a mapping, or nothing at all. -/
def mutableBrace : Parser Node := do
  let start ← peek
  let node ← brace g
  match node.kind with
  | .mapping _ => return node
  | .block [] => return ⟨.mapping [], node.position⟩
  | _ => rejectAt start "mutable requires a mapping, not a block"

/-- The mutable version of a container or a string. -/
def mutableForm : Parser Node := do
  let position ← expect (.keyword .mutable)
  let operand ←
    match (← peek).token with
    | .keyword .object => blockForm g .object .object
    | .punctuator .leftBrace => mutableBrace g
    | .punctuator .leftBracket => bracket g
    | .punctuator .leftParen => tuple g
    | .string _ => atom g
    | _ => failExpecting ["keyword 'object'", "'\x7b'", "'['", "'('", "string"]
  return ⟨.mutable operand, position⟩

/-- Whether a token ends the expression around an optional one. -/
def endsExpression : Token → Bool
  | .newline | .endOfInput
  | .punctuator .rightParen | .punctuator .rightBracket | .punctuator .rightBrace
  | .punctuator .comma | .punctuator .colon
  | .keyword .then_ | .keyword .else_ | .keyword .catch_ | .keyword .finally_ => true
  | _ => false

/-- An expression, unless the next token ends the one around it. -/
def optionalExpression : Parser (Option Node) := do
  if endsExpression (← peek).token then return none else some <$> g.expression

/-- A keyword with an expression behind it. -/
def throwForm : Parser Node := do
  let position ← expect (.keyword .throw)
  return ⟨.throw (← g.expression), position⟩

/-- A return from a lambda. -/
def returnForm : Parser Node := do
  let position ← expect (.keyword .return_)
  return ⟨.return_ (← optionalExpression g), position⟩

/-- A value handed out by a generator, or all values of another one. -/
def yieldForm : Parser Node := do
  let position ← expect (.keyword .yield)
  if ← eat (.keyword .from_) then return ⟨.yieldFrom (← g.expression), position⟩
  else return ⟨.yield (← optionalExpression g), position⟩

/-- A keyword that is an expression by itself. -/
def wordForm (k : Keyword) (kind : NodeKind) : Parser Node := do
  return ⟨kind, ← expect (.keyword k)⟩

/-- The form that a keyword begins, if it begins one. -/
def form? : Keyword → Option (Parser Node)
  | .if_ => some (conditional g)
  | .case => some (caseForm g)
  | .try_ => some (tryForm g)
  | .for_ => some (forLoop g)
  | .while_ => some (whileLoop g)
  | .iter => some (iterForm g)
  | .do_ => some (blockForm g .do_ .do_)
  | .object => some (blockForm g .object .object)
  | .module_ => some (blockForm g .module_ .module_)
  | .exception => some (blockForm g .exception .exception)
  | .enum => some (enumForm g)
  | .mutable => some (mutableForm g)
  | .throw => some (throwForm g)
  | .return_ => some (returnForm g)
  | .yield => some (yieldForm g)
  | .break_ => some (wordForm .break_ .break_)
  | .continue_ => some (wordForm .continue_ .continue_)
  | .pass => some (wordForm .pass .pass)
  | _ => none

end DrakeSyntax.Parser
