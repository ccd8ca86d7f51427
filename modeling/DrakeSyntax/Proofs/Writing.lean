import DrakeSyntax.Proofs.Runs.Operand

/-!
# Writing trees

Every program is written as tokens (`Program.written`). Each node is written by the production
that reads it, with all expressions inside it in parentheses; only what a production can read
without them is written without: the operands of `iter` and `mutable`, the body of a loop and an
index. Items of lists are separated by commas, and targets and parameters are written in
parentheses.
-/

namespace DrakeSyntax

/-- The tokens in braces. -/
def inBraces (w : List Token) : List Token :=
  .punctuator .leftBrace :: (w ++ [.punctuator .rightBrace])

/-- The tokens in brackets. -/
def inBrackets (w : List Token) : List Token :=
  .punctuator .leftBracket :: (w ++ [.punctuator .rightBracket])

/-! ### Types, parameters and targets -/

mutual

/-- A type is a name, perhaps with types in brackets behind it. -/
def TypeHint.written : TypeHint → List Token
  | ⟨name, [], _⟩ => [.identifier name]
  | ⟨name, p :: ps, _⟩ => .identifier name :: inBrackets (commaList (TypeHint.writtenAll (p :: ps)))

/-- The types of a list, each as it is written. -/
def TypeHint.writtenAll : List TypeHint → List (List Token)
  | [] => []
  | t :: ts => t.written :: TypeHint.writtenAll ts

end

/-- The type between angle brackets. -/
def TypeHint.angled (t : TypeHint) : List Token :=
  .punctuator .less :: (t.written ++ [.punctuator .greater])

theorem TypeHint.angled_append (hint : TypeHint) (l : List Token) :
    hint.angled ++ l = .punctuator .less :: (hint.written ++ .punctuator .greater :: l) := by
  simp [TypeHint.angled]

/-- The keyword in front of a target with the modifier. -/
def TargetModifier.token : TargetModifier → Token
  | nonlocal => .keyword .nonlocal
  | const => .keyword .const

/-- A target is written without parentheses of its own. -/
def Target.written (t : Target) : List Token :=
  t.modifier.toList.map (·.token) ++ (t.typeHint.toList.flatMap TypeHint.angled
    ++ [.identifier t.name])

/-- The targets in parentheses. -/
def writtenTargets (ts : List Target) : List Token := inParens (commaList (ts.map Target.written))

/-- A declaration is written like a target. -/
def Declaration.written (d : Declaration) : List Token :=
  (if d.constant then [.keyword .const] else []) ++ (d.typeHint.angled ++ [.identifier d.name])

/-- A positional parameter has a star in front if it is variadic. -/
def PositionalParameter.written (p : PositionalParameter) : List Token :=
  (if p.variadic then [.punctuator .star] else []) ++ (p.typeHint.angled ++ [.identifier p.name])

/-- The token that spells the operator. -/
def AssignmentOperator.token : AssignmentOperator → Token
  | assign => .punctuator .assign
  | addAssign => .punctuator .plusEqual
  | subtractAssign => .punctuator .minusEqual
  | multiplyAssign => .punctuator .starEqual
  | divideAssign => .punctuator .slashEqual
  | moduloAssign => .punctuator .percentEqual
  | powerAssign => .punctuator .starStarEqual
  | bitAndAssign => .punctuator .ampersandEqual
  | bitOrAssign => .punctuator .barEqual
  | bitXorAssign => .punctuator .caretEqual
  | shiftLeftAssign => .punctuator .lessLessEqual
  | shiftRightAssign => .punctuator .greaterGreaterEqual

/-- A member of an enumeration, with its value if it has one. -/
def EnumMember.written (m : EnumMember) : List Token :=
  .identifier m.name :: m.value.toList.flatMap fun literal =>
    [.punctuator .assign, .number literal]

/-! ### Nodes -/

mutual

/-- The node without parentheses around it. -/
def Node.written : Node → List Token
  | ⟨kind, _⟩ => kind.written

/-- The expression, as the production that reads it has it. -/
def NodeKind.written : NodeKind → List Token
  | .literal value => [value.token]
  | .identifier name => [.identifier name]
  | .declaration value => value.written
  | .assignment targets operator value =>
    writtenTargets targets ++ operator.token :: inParens value.written
  | .binary operator operands => Node.writtenChain operator operands
  | .unary operator operand => operator.token :: inParens operand.written
  | .primary base trailers => inParens base.written ++ Trailer.writtenAll trailers
  | .lambda positional keyword body =>
    inParens (commaList (positional.map PositionalParameter.written
      ++ KeywordParameter.writtenAll keyword)) ++ .punctuator .arrow :: inParens body.written
  | .conditional condition consequence otherwise =>
    .keyword .if_ :: (inParens condition.written ++ .keyword .then_ ::
      (inParens consequence.written ++ Node.writtenBehind .else_ otherwise))
  | .case subject branches otherwise =>
    .keyword .case :: (inParens subject.written ++ .keyword .in_ ::
      (inBraces (commaList (Pair.writtenAll branches)) ++ Node.writtenBehind .else_ otherwise))
  | .try_ body handlers cleanup =>
    .keyword .try_ :: (inParens body.written ++ (CatchClause.writtenAll handlers
      ++ Node.writtenBehind .finally_ cleanup))
  | .for_ targets iterable body =>
    .keyword .for_ :: (writtenTargets targets ++ .keyword .in_ ::
      (inParens iterable.written ++ body.written))
  | .while_ condition body => .keyword .while_ :: (inParens condition.written ++ body.written)
  | .iter operand => .keyword .iter :: operand.written
  | .do_ items => .keyword .do_ :: inBraces (commaList (Node.writtenAll items))
  | .object items => .keyword .object :: inBraces (commaList (Node.writtenAll items))
  | .module_ items => .keyword .module_ :: inBraces (commaList (Node.writtenAll items))
  | .exception items => .keyword .exception :: inBraces (commaList (Node.writtenAll items))
  | .enum flags members =>
    .keyword .enum :: ((if flags then [.keyword .flags] else [])
      ++ inBraces (commaList (members.map EnumMember.written)))
  | .mutable operand => .keyword .mutable :: operand.written
  | .throw value => .keyword .throw :: inParens value.written
  | .return_ value => .keyword .return_ :: Node.writtenOption value
  | .yield value => .keyword .yield :: Node.writtenOption value
  | .yieldFrom source => .keyword .yield :: .keyword .from_ :: inParens source.written
  | .break_ => [.keyword .break_]
  | .continue_ => [.keyword .continue_]
  | .pass => [.keyword .pass]
  | .mapping pairs => inBraces (commaList (Pair.writtenAll pairs))
  | .list content => inBrackets content.written
  | .tuple items =>
    inParens (commaList (Node.writtenAll items)
      ++ if items.length = 1 then [.punctuator .comma] else [])
  | .block items => inBraces (commaList (Node.writtenAll items))

/-- The nodes of a list, each in parentheses. -/
def Node.writtenAll : List Node → List (List Token)
  | [] => []
  | n :: ns => inParens n.written :: Node.writtenAll ns

/-- The node in parentheses, if there is one. -/
def Node.writtenOption : Option Node → List Token
  | none => []
  | some n => inParens n.written

/-- The node in parentheses with a keyword in front, if there is one. -/
def Node.writtenBehind (k : Keyword) : Option Node → List Token
  | none => []
  | some n => .keyword k :: inParens n.written

/-- The operands in parentheses with the operator between them. -/
def Node.writtenChain (operator : BinaryOperator) : List Node → List Token
  | [] => []
  | n :: ns => inParens n.written ++ Node.writtenOperands operator ns

/-- The operands in parentheses, each with the operator in front. -/
def Node.writtenOperands (operator : BinaryOperator) : List Node → List Token
  | [] => []
  | n :: ns => operator.tokens ++ inParens n.written ++ Node.writtenOperands operator ns

/-- Key and value in parentheses with a colon between them. -/
def Pair.written : Pair → List Token
  | ⟨key, value⟩ => inParens key.written ++ .punctuator .colon :: inParens value.written

/-- The pairs of a list, each as it is written. -/
def Pair.writtenAll : List Pair → List (List Token)
  | [] => []
  | p :: ps => p.written :: Pair.writtenAll ps

/-- An attribute, the arguments of a call in parentheses or an index in brackets. -/
def Trailer.written : Trailer → List Token
  | .attribute name => [.punctuator .dot, .identifier name]
  | .call positional keyword =>
    inParens (commaList (Node.writtenAll positional ++ KeywordArgument.writtenAll keyword))
  | .index operand => operand.written

/-- The trailers one behind the other. -/
def Trailer.writtenAll : List Trailer → List Token
  | [] => []
  | t :: ts => t.written ++ Trailer.writtenAll ts

/-- A name, a colon and the value in parentheses. -/
def KeywordArgument.written : KeywordArgument → List Token
  | ⟨name, value⟩ => .identifier name :: .punctuator .colon :: inParens value.written

/-- The named arguments of a list, each as it is written. -/
def KeywordArgument.writtenAll : List KeywordArgument → List (List Token)
  | [] => []
  | a :: as => a.written :: KeywordArgument.writtenAll as

/-- A type and a name with stars in front or a default value behind. -/
def KeywordParameter.written : KeywordParameter → List Token
  | ⟨typeHint, name, kind⟩ => kind.written (typeHint.angled ++ [.identifier name])

/-- The named parameters of a list, each as it is written. -/
def KeywordParameter.writtenAll : List KeywordParameter → List (List Token)
  | [] => []
  | p :: ps => p.written :: KeywordParameter.writtenAll ps

/-- What stands around the type and the name `w` of a parameter. -/
def KeywordParameterKind.written (w : List Token) : KeywordParameterKind → List Token
  | .required => w
  | .default value => w ++ .punctuator .colon :: inParens value.written
  | .collector => .punctuator .starStar :: w

/-- The type of the exceptions, the name given to them and the handler in parentheses. -/
def CatchClause.written : CatchClause → List Token
  | ⟨exceptionType, binding, handler, _⟩ =>
    .keyword .catch_ :: .identifier exceptionType ::
      (binding.toList.flatMap (fun name => [.keyword .as_, .identifier name])
        ++ inParens handler.written)

/-- The handlers one behind the other. -/
def CatchClause.writtenAll : List CatchClause → List Token
  | [] => []
  | c :: cs => c.written ++ CatchClause.writtenAll cs

/-- The expressions of a list, or the start, the end and the step of a range. -/
def ListLiteral.written : ListLiteral → List Token
  | .items ns => commaList (Node.writtenAll ns)
  | .range start stop step =>
    inParens start.written ++ .punctuator .dotDot ::
      (Node.writtenOption stop ++ ListLiteral.writtenStep step)

/-- The step of a range, with a comma in front. -/
def ListLiteral.writtenStep : Option Node → List Token
  | none => []
  | some n => .punctuator .comma :: inParens n.written

end

/-- The expressions of a program, in parentheses unless they are to be bare, and the end of the
input. -/
def Program.written (p : Program) (bare : Bool) : List Token :=
  commaList (p.body.map fun n => parensUnless bare n.written) ++ [.endOfInput]

/-! ### Lists -/

theorem TypeHint.writtenAll_eq_map (ts : List TypeHint) :
    TypeHint.writtenAll ts = ts.map TypeHint.written := by
  induction ts with
  | nil => rfl
  | cons t ts ih => rw [TypeHint.writtenAll, ih, List.map_cons]

theorem Node.writtenAll_eq_map (ns : List Node) :
    Node.writtenAll ns = ns.map fun n => inParens n.written := by
  induction ns with
  | nil => rfl
  | cons n ns ih => rw [Node.writtenAll, ih, List.map_cons]

theorem Node.writtenOperands_eq (operator : BinaryOperator) (ns : List Node) :
    Node.writtenOperands operator ns =
      chainWords (ns.map fun n => (operator, ⟨inParens n.written, n⟩)) := by
  induction ns with
  | nil => rfl
  | cons n ns ih =>
    rw [Node.writtenOperands, ih]
    rfl

theorem Pair.writtenAll_eq_map (ps : List Pair) : Pair.writtenAll ps = ps.map Pair.written := by
  induction ps with
  | nil => rfl
  | cons p ps ih => rw [Pair.writtenAll, ih, List.map_cons]

theorem KeywordArgument.writtenAll_eq_map (as : List KeywordArgument) :
    KeywordArgument.writtenAll as = as.map KeywordArgument.written := by
  induction as with
  | nil => rfl
  | cons a as ih => rw [KeywordArgument.writtenAll, ih, List.map_cons]

theorem KeywordParameter.writtenAll_eq_map (ps : List KeywordParameter) :
    KeywordParameter.writtenAll ps = ps.map KeywordParameter.written := by
  induction ps with
  | nil => rfl
  | cons p ps ih => rw [KeywordParameter.writtenAll, ih, List.map_cons]

end DrakeSyntax
