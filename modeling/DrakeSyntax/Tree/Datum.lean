import DrakeSyntax.Token.Datum
import DrakeSyntax.Tree

/-!
# Trees as data

The fields of every record stand in a fixed order, the one in which they are shown.
-/

namespace DrakeSyntax

/-- A literal as a datum. -/
def Literal.datum : Literal → Datum
  | string value => .tagged "String" (.text value)
  | number literal => .tagged "Number" literal.datum
  | boolean value => .tagged "Boolean" (.boolean value)
  | none => .variant "None"

mutual

/-- A type as a datum. -/
def TypeHint.datum : TypeHint → Datum
  | ⟨name, parameters, position⟩ =>
    .record "TypeHint"
      [("name", .text name), ("parameters", .list (TypeHint.data parameters)),
        ("position", position.datum)]

/-- Types as data. -/
def TypeHint.data : List TypeHint → List Datum
  | [] => []
  | t :: ts => t.datum :: TypeHint.data ts

end

/-- A target as a datum. -/
def Target.datum (t : Target) : Datum :=
  .record "Target"
    [("modifier", .ofOption (.variant ·.name) t.modifier),
      ("type_hint", .ofOption TypeHint.datum t.typeHint), ("name", .text t.name),
      ("position", t.position.datum)]

/-- A declaration as a datum. -/
def Declaration.datum (d : Declaration) : Datum :=
  .record "Declaration"
    [("constant", .boolean d.constant), ("type_hint", d.typeHint.datum), ("name", .text d.name)]

/-- A positional parameter as a datum. -/
def PositionalParameter.datum (p : PositionalParameter) : Datum :=
  .record "PositionalParam"
    [("type_hint", p.typeHint.datum), ("variadic", .boolean p.variadic), ("name", .text p.name)]

/-- An enumeration member as a datum. -/
def EnumMember.datum (m : EnumMember) : Datum :=
  .record "EnumMember"
    [("name", .text m.name), ("value", .ofOption NumberLiteral.datum m.value),
      ("position", m.position.datum)]

mutual

/-- A node as a datum. -/
def Node.datum : Node → Datum
  | ⟨kind, position⟩ => .record "Node" [("kind", kind.datum), ("position", position.datum)]

/-- An expression as a datum. -/
def NodeKind.datum : NodeKind → Datum
  | .literal value => .tagged "Literal" value.datum
  | .identifier name => .tagged "Identifier" (.text name)
  | .declaration value => .tagged "Declaration" value.datum
  | .assignment targets operator value =>
    .taggedRecord "Assignment"
      [("targets", .ofList Target.datum targets), ("operator", .variant operator.name),
        ("value", value.datum)]
  | .binary operator operands =>
    .taggedRecord "BinaryOp"
      [("operator", .variant operator.name), ("operands", .list (Node.data operands))]
  | .unary operator operand =>
    .taggedRecord "UnaryOp" [("operator", .variant operator.name), ("operand", operand.datum)]
  | .primary base trailers =>
    .taggedRecord "Primary" [("base", base.datum), ("postfix", .list (Trailer.data trailers))]
  | .lambda positional keyword body =>
    .tagged "Lambda" (.record "Lambda"
      [("positional", .ofList PositionalParameter.datum positional),
        ("keyword", .list (KeywordParameter.data keyword)), ("body", body.datum)])
  | .conditional condition consequence otherwise =>
    .taggedRecord "If"
      [("condition", condition.datum), ("then", consequence.datum),
        ("otherwise", Node.optionalDatum otherwise)]
  | .case subject branches otherwise =>
    .taggedRecord "Case"
      [("subject", subject.datum), ("branches", .list (Pair.data branches)),
        ("otherwise", Node.optionalDatum otherwise)]
  | .try_ body handlers cleanup =>
    .taggedRecord "Try"
      [("body", body.datum), ("handlers", .list (CatchClause.data handlers)),
        ("finally", Node.optionalDatum cleanup)]
  | .for_ targets iterable body =>
    .taggedRecord "For"
      [("targets", .ofList Target.datum targets), ("iterable", iterable.datum),
        ("body", body.datum)]
  | .while_ condition body =>
    .taggedRecord "While" [("condition", condition.datum), ("body", body.datum)]
  | .iter operand => .tagged "Iter" operand.datum
  | .do_ items => .tagged "Do" (.list (Node.data items))
  | .object items => .tagged "Object" (.list (Node.data items))
  | .module_ items => .tagged "Module" (.list (Node.data items))
  | .exception items => .tagged "Exception" (.list (Node.data items))
  | .enum flags members =>
    .taggedRecord "Enum" [("flags", .boolean flags), ("members", .ofList EnumMember.datum members)]
  | .mutable operand => .tagged "Mutable" operand.datum
  | .throw value => .tagged "Throw" value.datum
  | .return_ value => .tagged "Return" (Node.optionalDatum value)
  | .yield value => .tagged "Yield" (Node.optionalDatum value)
  | .yieldFrom source => .tagged "YieldFrom" source.datum
  | .break_ => .variant "Break"
  | .continue_ => .variant "Continue"
  | .pass => .variant "Pass"
  | .mapping pairs => .tagged "Mapping" (.list (Pair.data pairs))
  | .list content => .tagged "List" content.datum
  | .tuple items => .tagged "Tuple" (.list (Node.data items))
  | .block items => .tagged "Block" (.list (Node.data items))

/-- Nodes as data. -/
def Node.data : List Node → List Datum
  | [] => []
  | n :: ns => n.datum :: Node.data ns

/-- An optional node as a datum. -/
def Node.optionalDatum : Option Node → Datum
  | .none => .absent
  | .some n => .present n.datum

/-- A pair as a datum. -/
def Pair.datum : Pair → Datum
  | ⟨key, value⟩ => .record "Pair" [("key", key.datum), ("value", value.datum)]

/-- Pairs as data. -/
def Pair.data : List Pair → List Datum
  | [] => []
  | p :: ps => p.datum :: Pair.data ps

/-- A trailer as a datum. -/
def Trailer.datum : Trailer → Datum
  | .attribute name => .tagged "Attribute" (.text name)
  | .call positional keyword =>
    .taggedRecord "Call"
      [("positional", .list (Node.data positional)),
        ("keyword", .list (KeywordArgument.data keyword))]
  | .index operand => .tagged "Index" operand.datum

/-- Trailers as data. -/
def Trailer.data : List Trailer → List Datum
  | [] => []
  | t :: ts => t.datum :: Trailer.data ts

/-- A named argument as a datum. -/
def KeywordArgument.datum : KeywordArgument → Datum
  | ⟨name, value⟩ => .record "KeywordArgument" [("name", .text name), ("value", value.datum)]

/-- Named arguments as data. -/
def KeywordArgument.data : List KeywordArgument → List Datum
  | [] => []
  | a :: as => a.datum :: KeywordArgument.data as

/-- A named parameter as a datum. -/
def KeywordParameter.datum : KeywordParameter → Datum
  | ⟨typeHint, name, kind⟩ =>
    .record "KeywordParam"
      [("type_hint", typeHint.datum), ("name", .text name), ("kind", kind.datum)]

/-- Named parameters as data. -/
def KeywordParameter.data : List KeywordParameter → List Datum
  | [] => []
  | p :: ps => p.datum :: KeywordParameter.data ps

/-- The way in which a named parameter gets a value, as a datum. -/
def KeywordParameterKind.datum : KeywordParameterKind → Datum
  | .required => .variant "Required"
  | .default value => .tagged "Default" value.datum
  | .collector => .variant "Collector"

/-- A catch clause as a datum. -/
def CatchClause.datum : CatchClause → Datum
  | ⟨exceptionType, binding, handler, position⟩ =>
    .record "CatchClause"
      [("exception_type", .text exceptionType), ("binding", .ofOption .text binding),
        ("handler", handler.datum), ("position", position.datum)]

/-- Catch clauses as data. -/
def CatchClause.data : List CatchClause → List Datum
  | [] => []
  | c :: cs => c.datum :: CatchClause.data cs

/-- Bracket contents as a datum. -/
def ListLiteral.datum : ListLiteral → Datum
  | .items ns => .tagged "Items" (.list (Node.data ns))
  | .range start stop step =>
    .taggedRecord "Range"
      [("start", start.datum), ("end", Node.optionalDatum stop),
        ("step", Node.optionalDatum step)]

end

/-- A program as a datum. -/
def Program.datum (p : Program) : Datum := .record "Program" [("body", .list (Node.data p.body))]

end DrakeSyntax
