import DrakeSyntax.Tree

/-!
# Equality of trees

Two trees are the same when they differ in nothing but positions. So an expression in
parentheses is the same as that expression without them.
-/

namespace DrakeSyntax

/-- Whether two optional values are both missing or both there and related. -/
def sameOption (same : α → α → Bool) : Option α → Option α → Bool
  | none, none => true
  | some a, some b => same a b
  | _, _ => false

/-- Whether two lists have the same length and related elements at every place. -/
def sameList (same : α → α → Bool) : List α → List α → Bool
  | [], [] => true
  | a :: as, b :: bs => same a b && sameList same as bs
  | _, _ => false

mutual

/-- Equality of types up to positions. -/
def TypeHint.same : TypeHint → TypeHint → Bool
  | ⟨name₁, parameters₁, _⟩, ⟨name₂, parameters₂, _⟩ =>
    name₁ == name₂ && TypeHint.sameAll parameters₁ parameters₂

/-- Equality of lists of types up to positions. -/
def TypeHint.sameAll : List TypeHint → List TypeHint → Bool
  | [], [] => true
  | a :: as, b :: bs => a.same b && TypeHint.sameAll as bs
  | _, _ => false

end

/-- Equality of targets up to positions. -/
def Target.same (a b : Target) : Bool :=
  a.modifier == b.modifier && sameOption TypeHint.same a.typeHint b.typeHint && a.name == b.name

/-- Equality of declarations up to positions. -/
def Declaration.same (a b : Declaration) : Bool :=
  a.constant == b.constant && a.typeHint.same b.typeHint && a.name == b.name

/-- Equality of positional parameters up to positions. -/
def PositionalParameter.same (a b : PositionalParameter) : Bool :=
  a.typeHint.same b.typeHint && a.variadic == b.variadic && a.name == b.name

/-- Equality of enumeration members up to positions. -/
def EnumMember.same (a b : EnumMember) : Bool := a.name == b.name && a.value == b.value

mutual

/-- Equality of nodes up to positions. -/
def Node.same : Node → Node → Bool
  | ⟨kind₁, _⟩, ⟨kind₂, _⟩ => kind₁.same kind₂

/-- Equality of expressions up to positions. -/
def NodeKind.same : NodeKind → NodeKind → Bool
  | .literal a, other => if let .literal b := other then a == b else false
  | .identifier a, other => if let .identifier b := other then a == b else false
  | .declaration a, other => if let .declaration b := other then a.same b else false
  | .assignment targets₁ operator₁ value₁, other =>
    if let .assignment targets₂ operator₂ value₂ := other then
      sameList Target.same targets₁ targets₂ && operator₁ == operator₂ && value₁.same value₂
    else false
  | .binary operator₁ operands₁, other =>
    if let .binary operator₂ operands₂ := other then
      operator₁ == operator₂ && Node.sameAll operands₁ operands₂
    else false
  | .unary operator₁ operand₁, other =>
    if let .unary operator₂ operand₂ := other then
      operator₁ == operator₂ && operand₁.same operand₂
    else false
  | .primary base₁ trailers₁, other =>
    if let .primary base₂ trailers₂ := other then
      base₁.same base₂ && Trailer.sameAll trailers₁ trailers₂
    else false
  | .lambda positional₁ keyword₁ body₁, other =>
    if let .lambda positional₂ keyword₂ body₂ := other then
      sameList PositionalParameter.same positional₁ positional₂
        && KeywordParameter.sameAll keyword₁ keyword₂ && body₁.same body₂
    else false
  | .conditional condition₁ consequence₁ otherwise₁, other =>
    if let .conditional condition₂ consequence₂ otherwise₂ := other then
      condition₁.same condition₂ && consequence₁.same consequence₂
        && Node.sameOptional otherwise₁ otherwise₂
    else false
  | .case subject₁ branches₁ otherwise₁, other =>
    if let .case subject₂ branches₂ otherwise₂ := other then
      subject₁.same subject₂ && Pair.sameAll branches₁ branches₂
        && Node.sameOptional otherwise₁ otherwise₂
    else false
  | .try_ body₁ handlers₁ cleanup₁, other =>
    if let .try_ body₂ handlers₂ cleanup₂ := other then
      body₁.same body₂ && CatchClause.sameAll handlers₁ handlers₂
        && Node.sameOptional cleanup₁ cleanup₂
    else false
  | .for_ targets₁ iterable₁ body₁, other =>
    if let .for_ targets₂ iterable₂ body₂ := other then
      sameList Target.same targets₁ targets₂ && iterable₁.same iterable₂ && body₁.same body₂
    else false
  | .while_ condition₁ body₁, other =>
    if let .while_ condition₂ body₂ := other then
      condition₁.same condition₂ && body₁.same body₂
    else false
  | .iter a, other => if let .iter b := other then a.same b else false
  | .do_ as, other => if let .do_ bs := other then Node.sameAll as bs else false
  | .object as, other => if let .object bs := other then Node.sameAll as bs else false
  | .module_ as, other => if let .module_ bs := other then Node.sameAll as bs else false
  | .exception as, other => if let .exception bs := other then Node.sameAll as bs else false
  | .enum flags₁ members₁, other =>
    if let .enum flags₂ members₂ := other then
      flags₁ == flags₂ && sameList EnumMember.same members₁ members₂
    else false
  | .mutable a, other => if let .mutable b := other then a.same b else false
  | .throw a, other => if let .throw b := other then a.same b else false
  | .return_ a, other => if let .return_ b := other then Node.sameOptional a b else false
  | .yield a, other => if let .yield b := other then Node.sameOptional a b else false
  | .yieldFrom a, other => if let .yieldFrom b := other then a.same b else false
  | .break_, other => (other matches .break_)
  | .continue_, other => (other matches .continue_)
  | .pass, other => (other matches .pass)
  | .mapping as, other => if let .mapping bs := other then Pair.sameAll as bs else false
  | .list a, other => if let .list b := other then a.same b else false
  | .tuple as, other => if let .tuple bs := other then Node.sameAll as bs else false
  | .block as, other => if let .block bs := other then Node.sameAll as bs else false

/-- Equality of lists of nodes up to positions. -/
def Node.sameAll : List Node → List Node → Bool
  | [], [] => true
  | a :: as, b :: bs => a.same b && Node.sameAll as bs
  | _, _ => false

/-- Equality of optional nodes up to positions. -/
def Node.sameOptional : Option Node → Option Node → Bool
  | none, none => true
  | some a, some b => a.same b
  | _, _ => false

/-- Equality of pairs up to positions. -/
def Pair.same : Pair → Pair → Bool
  | ⟨key₁, value₁⟩, ⟨key₂, value₂⟩ => key₁.same key₂ && value₁.same value₂

/-- Equality of lists of pairs up to positions. -/
def Pair.sameAll : List Pair → List Pair → Bool
  | [], [] => true
  | a :: as, b :: bs => a.same b && Pair.sameAll as bs
  | _, _ => false

/-- Equality of trailers up to positions. -/
def Trailer.same : Trailer → Trailer → Bool
  | .attribute a, .attribute b => a == b
  | .call positional₁ keyword₁, .call positional₂ keyword₂ =>
    Node.sameAll positional₁ positional₂ && KeywordArgument.sameAll keyword₁ keyword₂
  | .index a, .index b => a.same b
  | _, _ => false

/-- Equality of lists of trailers up to positions. -/
def Trailer.sameAll : List Trailer → List Trailer → Bool
  | [], [] => true
  | a :: as, b :: bs => a.same b && Trailer.sameAll as bs
  | _, _ => false

/-- Equality of named arguments up to positions. -/
def KeywordArgument.same : KeywordArgument → KeywordArgument → Bool
  | ⟨name₁, value₁⟩, ⟨name₂, value₂⟩ => name₁ == name₂ && value₁.same value₂

/-- Equality of lists of named arguments up to positions. -/
def KeywordArgument.sameAll : List KeywordArgument → List KeywordArgument → Bool
  | [], [] => true
  | a :: as, b :: bs => a.same b && KeywordArgument.sameAll as bs
  | _, _ => false

/-- Equality of named parameters up to positions. -/
def KeywordParameter.same : KeywordParameter → KeywordParameter → Bool
  | ⟨typeHint₁, name₁, kind₁⟩, ⟨typeHint₂, name₂, kind₂⟩ =>
    typeHint₁.same typeHint₂ && name₁ == name₂ && kind₁.same kind₂

/-- Equality of lists of named parameters up to positions. -/
def KeywordParameter.sameAll : List KeywordParameter → List KeywordParameter → Bool
  | [], [] => true
  | a :: as, b :: bs => a.same b && KeywordParameter.sameAll as bs
  | _, _ => false

/-- Equality of the ways in which named parameters get values, up to positions. -/
def KeywordParameterKind.same : KeywordParameterKind → KeywordParameterKind → Bool
  | .required, .required => true
  | .default a, .default b => a.same b
  | .collector, .collector => true
  | _, _ => false

/-- Equality of catch clauses up to positions. -/
def CatchClause.same : CatchClause → CatchClause → Bool
  | ⟨exceptionType₁, binding₁, handler₁, _⟩, ⟨exceptionType₂, binding₂, handler₂, _⟩ =>
    exceptionType₁ == exceptionType₂ && binding₁ == binding₂ && handler₁.same handler₂

/-- Equality of lists of catch clauses up to positions. -/
def CatchClause.sameAll : List CatchClause → List CatchClause → Bool
  | [], [] => true
  | a :: as, b :: bs => a.same b && CatchClause.sameAll as bs
  | _, _ => false

/-- Equality of bracket contents up to positions. -/
def ListLiteral.same : ListLiteral → ListLiteral → Bool
  | .items as, .items bs => Node.sameAll as bs
  | .range start₁ stop₁ step₁, .range start₂ stop₂ step₂ =>
    start₁.same start₂ && Node.sameOptional stop₁ stop₂ && Node.sameOptional step₁ step₂
  | _, _ => false

end

/-- Equality of programs up to positions. -/
def Program.same (a b : Program) : Bool := Node.sameAll a.body b.body

end DrakeSyntax
