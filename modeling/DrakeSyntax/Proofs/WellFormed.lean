import DrakeSyntax.Tree

/-!
# Well-formed trees

What the reader of a tree may rely on without looking. A node is well-formed when its own shape is
right (`NodeKind.WellShaped`) and all nodes inside it are well-formed. There is one exception: an
empty mapping is allowed where it is made mutable, and nowhere else.
-/

namespace DrakeSyntax

/-- The operators that always have two operands. -/
def BinaryOperator.groupsRight : BinaryOperator → Bool
  | or | xor | and | power => true
  | _ => false

namespace NodeKind

/-- A list or a range between brackets. -/
def isList : NodeKind → Bool
  | list _ => true
  | _ => false

def isBlock : NodeKind → Bool
  | block _ => true
  | _ => false

/-- What can be iterated lazily. -/
def isIterable : NodeKind → Bool
  | list _ | for_ .. | while_ .. => true
  | _ => false

/-- What can be made mutable. -/
def isMutable : NodeKind → Bool
  | object _ | mapping _ | list _ | tuple _ | literal (.string _) => true
  | _ => false

end NodeKind

/-- The nodes directly inside a trailer. -/
def Trailer.nodes : Trailer → List Node
  | .attribute _ => []
  | .call positional keyword => positional ++ keyword.map (·.value)
  | .index operand => [operand]

/-- The default value of a parameter, if it has one. -/
def KeywordParameterKind.nodes : KeywordParameterKind → List Node
  | .default value => [value]
  | .required | .collector => []

/-- The nodes directly between brackets. -/
def ListLiteral.nodes : ListLiteral → List Node
  | .items ns => ns
  | .range start stop step => start :: (stop.toList ++ step.toList)

/-- The nodes of a pair. -/
def Pair.nodes (p : Pair) : List Node := [p.key, p.value]

/-- The nodes directly inside a node. -/
def NodeKind.children : NodeKind → List Node
  | .literal _ | .identifier _ | .declaration _ | .enum _ _ | .break_ | .continue_ | .pass => []
  | .assignment _ _ value => [value]
  | .binary _ operands => operands
  | .unary _ operand => [operand]
  | .primary base trailers => base :: trailers.flatMap Trailer.nodes
  | .lambda _ keyword body => keyword.flatMap (·.kind.nodes) ++ [body]
  | .conditional condition consequence otherwise => condition :: consequence :: otherwise.toList
  | .case subject branches otherwise => subject :: (branches.flatMap Pair.nodes ++ otherwise.toList)
  | .try_ body handlers cleanup => body :: (handlers.map (·.handler) ++ cleanup.toList)
  | .for_ _ iterable body => [iterable, body]
  | .while_ condition body => [condition, body]
  | .iter operand | .mutable operand => [operand]
  | .do_ items | .object items | .module_ items | .exception items => items
  | .tuple items | .block items => items
  | .throw value | .yieldFrom value => [value]
  | .return_ value | .yield value => value.toList
  | .mapping pairs => pairs.flatMap Pair.nodes
  | .list content => content.nodes

/-- The node itself has the right shape. -/
def NodeKind.WellShaped : NodeKind → Prop
  | .binary operator operands =>
    if operator.groupsRight then operands.length = 2 else 2 ≤ operands.length
  | .primary _ trailers =>
    trailers ≠ [] ∧ ∀ operand, .index operand ∈ trailers → operand.kind.isList
  | .assignment targets operator _ =>
    targets ≠ [] ∧
      (operator ≠ .assign → ∃ target, targets = [target] ∧ target.modifier ≠ some .const)
  | .lambda _ keyword _ => ∀ k ∈ keyword.head?, k.kind ≠ .required
  | .try_ _ handlers cleanup => handlers ≠ [] ∨ cleanup.isSome
  | .for_ targets _ body => targets ≠ [] ∧ body.kind.isBlock
  | .while_ _ body => body.kind.isBlock
  | .iter operand => operand.kind.isIterable
  | .mutable operand => operand.kind.isMutable
  | .mapping pairs => pairs ≠ []
  | _ => True

/-- The node and all nodes inside it have the right shape. -/
inductive Node.WellFormed : Node → Prop
  /-- A mapping may be empty where it is made mutable. -/
  | emptyTable (p q : Position) : WellFormed ⟨.mutable ⟨.mapping [], p⟩, q⟩
  | node {kind : NodeKind} {position : Position} (shape : kind.WellShaped)
    (inside : ∀ c ∈ kind.children, c.WellFormed) : WellFormed ⟨kind, position⟩

/-- All expressions of the program are well-formed. -/
def Program.WellFormed (p : Program) : Prop := ∀ n ∈ p.body, n.WellFormed

end DrakeSyntax
