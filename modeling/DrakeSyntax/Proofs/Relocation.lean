import DrakeSyntax.Error
import DrakeSyntax.Proofs.Same

/-!
# Trees at other positions

A tree is relocated by putting another position in place of each of its own. Nothing but
positions changes, and trees that become the same tree when certain parts of their positions are
erased differ in these parts only.

* `Node.relocate`, `Program.relocate`: trees at other positions.
* `Node.relocate_id`: nothing changes at the same positions.
* `Node.same_of_relocate`, `Program.same_of_relocate`: relocation changes positions only.
-/

namespace DrakeSyntax

variable (f : Position → Position)

mutual

/-- A type at other positions. -/
def TypeHint.relocate : TypeHint → TypeHint
  | ⟨name, parameters, position⟩ => ⟨name, TypeHint.relocateAll parameters, f position⟩

/-- The types of a list at other positions. -/
def TypeHint.relocateAll : List TypeHint → List TypeHint
  | [] => []
  | t :: ts => t.relocate :: TypeHint.relocateAll ts

end

/-- A target at other positions. -/
def Target.relocate (t : Target) : Target :=
  ⟨t.modifier, t.typeHint.map (TypeHint.relocate f), t.name, f t.position⟩

/-- A declaration at other positions. -/
def Declaration.relocate (d : Declaration) : Declaration :=
  ⟨d.constant, d.typeHint.relocate f, d.name⟩

/-- A positional parameter at other positions. -/
def PositionalParameter.relocate (p : PositionalParameter) : PositionalParameter :=
  ⟨p.typeHint.relocate f, p.variadic, p.name⟩

/-- A member of an enumeration at another position. -/
def EnumMember.relocate (m : EnumMember) : EnumMember := ⟨m.name, m.value, f m.position⟩

mutual

/-- A node at other positions. -/
def Node.relocate : Node → Node
  | ⟨kind, position⟩ => ⟨kind.relocate, f position⟩

/-- An expression at other positions. -/
def NodeKind.relocate : NodeKind → NodeKind
  | .literal value => .literal value
  | .identifier name => .identifier name
  | .declaration value => .declaration (value.relocate f)
  | .assignment targets operator value =>
    .assignment (targets.map (Target.relocate f)) operator value.relocate
  | .binary operator operands => .binary operator (Node.relocateAll operands)
  | .unary operator operand => .unary operator operand.relocate
  | .primary base trailers => .primary base.relocate (Trailer.relocateAll trailers)
  | .lambda positional keyword body =>
    .lambda (positional.map (PositionalParameter.relocate f)) (KeywordParameter.relocateAll keyword)
      body.relocate
  | .conditional condition consequence otherwise =>
    .conditional condition.relocate consequence.relocate (Node.relocateOptional otherwise)
  | .case subject branches otherwise =>
    .case subject.relocate (Pair.relocateAll branches) (Node.relocateOptional otherwise)
  | .try_ body handlers cleanup =>
    .try_ body.relocate (CatchClause.relocateAll handlers) (Node.relocateOptional cleanup)
  | .for_ targets iterable body =>
    .for_ (targets.map (Target.relocate f)) iterable.relocate body.relocate
  | .while_ condition body => .while_ condition.relocate body.relocate
  | .iter operand => .iter operand.relocate
  | .do_ items => .do_ (Node.relocateAll items)
  | .object items => .object (Node.relocateAll items)
  | .module_ items => .module_ (Node.relocateAll items)
  | .exception items => .exception (Node.relocateAll items)
  | .enum flags members => .enum flags (members.map (EnumMember.relocate f))
  | .mutable operand => .mutable operand.relocate
  | .throw value => .throw value.relocate
  | .return_ value => .return_ (Node.relocateOptional value)
  | .yield value => .yield (Node.relocateOptional value)
  | .yieldFrom source => .yieldFrom source.relocate
  | .break_ => .break_
  | .continue_ => .continue_
  | .pass => .pass
  | .mapping pairs => .mapping (Pair.relocateAll pairs)
  | .list content => .list content.relocate
  | .tuple items => .tuple (Node.relocateAll items)
  | .block items => .block (Node.relocateAll items)

/-- The nodes of a list at other positions. -/
def Node.relocateAll : List Node → List Node
  | [] => []
  | n :: ns => n.relocate :: Node.relocateAll ns

/-- An optional node at other positions. -/
def Node.relocateOptional : Option Node → Option Node
  | none => none
  | some n => some n.relocate

/-- A pair at other positions. -/
def Pair.relocate : Pair → Pair
  | ⟨key, value⟩ => ⟨key.relocate, value.relocate⟩

/-- The pairs of a list at other positions. -/
def Pair.relocateAll : List Pair → List Pair
  | [] => []
  | p :: ps => p.relocate :: Pair.relocateAll ps

/-- A trailer at other positions. -/
def Trailer.relocate : Trailer → Trailer
  | .attribute name => .attribute name
  | .call positional keyword =>
    .call (Node.relocateAll positional) (KeywordArgument.relocateAll keyword)
  | .index operand => .index operand.relocate

/-- The trailers of a list at other positions. -/
def Trailer.relocateAll : List Trailer → List Trailer
  | [] => []
  | t :: ts => t.relocate :: Trailer.relocateAll ts

/-- A named argument at other positions. -/
def KeywordArgument.relocate : KeywordArgument → KeywordArgument
  | ⟨name, value⟩ => ⟨name, value.relocate⟩

/-- The named arguments of a list at other positions. -/
def KeywordArgument.relocateAll : List KeywordArgument → List KeywordArgument
  | [] => []
  | a :: as => a.relocate :: KeywordArgument.relocateAll as

/-- A named parameter at other positions. -/
def KeywordParameter.relocate : KeywordParameter → KeywordParameter
  | ⟨typeHint, name, kind⟩ => ⟨typeHint.relocate f, name, kind.relocate⟩

/-- The named parameters of a list at other positions. -/
def KeywordParameter.relocateAll : List KeywordParameter → List KeywordParameter
  | [] => []
  | p :: ps => p.relocate :: KeywordParameter.relocateAll ps

/-- The way in which a named parameter gets a value, at other positions. -/
def KeywordParameterKind.relocate : KeywordParameterKind → KeywordParameterKind
  | .required => .required
  | .default value => .default value.relocate
  | .collector => .collector

/-- A catch clause at other positions. -/
def CatchClause.relocate : CatchClause → CatchClause
  | ⟨exceptionType, binding, handler, position⟩ =>
    ⟨exceptionType, binding, handler.relocate, f position⟩

/-- The catch clauses of a list at other positions. -/
def CatchClause.relocateAll : List CatchClause → List CatchClause
  | [] => []
  | c :: cs => c.relocate :: CatchClause.relocateAll cs

/-- Bracket contents at other positions. -/
def ListLiteral.relocate : ListLiteral → ListLiteral
  | .items items => .items (Node.relocateAll items)
  | .range start stop step =>
    .range start.relocate (Node.relocateOptional stop) (Node.relocateOptional step)

end

/-- A program at other positions. -/
def Program.relocate (p : Program) : Program := ⟨Node.relocateAll f p.body⟩

/-- A token at another position. -/
def PlacedToken.relocate (t : PlacedToken) : PlacedToken := ⟨t.token, f t.position⟩

/-- A fault at another position. -/
def LexError.relocate (e : LexError) : LexError := { e with position := f e.position }

/-- A complaint at another position. -/
def ParseError.relocate (e : ParseError) : ParseError := { e with position := f e.position }

/-- An error at another position. -/
def SyntaxError.relocate : SyntaxError → SyntaxError
  | .lex e => .lex (e.relocate f)
  | .parse e => .parse (e.relocate f)

variable {f : Position → Position}

/-! ### Lists -/

theorem TypeHint.relocateAll_eq_map (ts : List TypeHint) :
    TypeHint.relocateAll f ts = ts.map (TypeHint.relocate f) := by
  induction ts with
  | nil => rfl
  | cons t ts ih => rw [TypeHint.relocateAll, ih, List.map_cons]

theorem Node.relocateAll_eq_map (ns : List Node) :
    Node.relocateAll f ns = ns.map (Node.relocate f) := by
  induction ns with
  | nil => rfl
  | cons n ns ih => rw [Node.relocateAll, ih, List.map_cons]

theorem Pair.relocateAll_eq_map (ps : List Pair) :
    Pair.relocateAll f ps = ps.map (Pair.relocate f) := by
  induction ps with
  | nil => rfl
  | cons p ps ih => rw [Pair.relocateAll, ih, List.map_cons]

theorem Trailer.relocateAll_eq_map (ts : List Trailer) :
    Trailer.relocateAll f ts = ts.map (Trailer.relocate f) := by
  induction ts with
  | nil => rfl
  | cons t ts ih => rw [Trailer.relocateAll, ih, List.map_cons]

theorem KeywordArgument.relocateAll_eq_map (as : List KeywordArgument) :
    KeywordArgument.relocateAll f as = as.map (KeywordArgument.relocate f) := by
  induction as with
  | nil => rfl
  | cons a as ih => rw [KeywordArgument.relocateAll, ih, List.map_cons]

theorem KeywordParameter.relocateAll_eq_map (ps : List KeywordParameter) :
    KeywordParameter.relocateAll f ps = ps.map (KeywordParameter.relocate f) := by
  induction ps with
  | nil => rfl
  | cons p ps ih => rw [KeywordParameter.relocateAll, ih, List.map_cons]

theorem CatchClause.relocateAll_eq_map (cs : List CatchClause) :
    CatchClause.relocateAll f cs = cs.map (CatchClause.relocate f) := by
  induction cs with
  | nil => rfl
  | cons c cs ih => rw [CatchClause.relocateAll, ih, List.map_cons]

/-! ### At the same positions -/

mutual

theorem TypeHint.relocate_id (t : TypeHint) : t.relocate id = t := by
  obtain ⟨name, parameters, position⟩ := t
  rw [TypeHint.relocate, TypeHint.relocateAll_id parameters, id]

theorem TypeHint.relocateAll_id (ts : List TypeHint) : TypeHint.relocateAll id ts = ts := by
  cases ts with
  | nil => rfl
  | cons t ts => rw [TypeHint.relocateAll, t.relocate_id, TypeHint.relocateAll_id ts]

end

theorem Target.relocate_id : Target.relocate id = id := by
  funext t
  have hhint : TypeHint.relocate id = id := funext TypeHint.relocate_id
  rw [Target.relocate, hhint, Option.map_id]
  rfl

theorem Declaration.relocate_id (d : Declaration) : d.relocate id = d := by
  rw [Declaration.relocate, TypeHint.relocate_id]

theorem PositionalParameter.relocate_id : PositionalParameter.relocate id = id := by
  funext p
  rw [PositionalParameter.relocate, TypeHint.relocate_id]
  rfl

theorem EnumMember.relocate_id : EnumMember.relocate id = id := rfl

mutual

theorem Node.relocate_id (n : Node) : n.relocate id = n := by
  obtain ⟨kind, position⟩ := n
  rw [Node.relocate, kind.relocate_id, id]

theorem NodeKind.relocate_id (kind : NodeKind) : kind.relocate id = kind := by
  cases kind with
  | literal | identifier | break_ | continue_ | pass => rfl
  | declaration value => rw [NodeKind.relocate, value.relocate_id]
  | assignment targets operator value =>
    rw [NodeKind.relocate, Target.relocate_id, List.map_id, value.relocate_id]
  | binary operator operands => rw [NodeKind.relocate, Node.relocateAll_id operands]
  | primary base trailers =>
    rw [NodeKind.relocate, base.relocate_id, Trailer.relocateAll_id trailers]
  | lambda positional keyword body =>
    rw [NodeKind.relocate, PositionalParameter.relocate_id, List.map_id,
      KeywordParameter.relocateAll_id keyword, body.relocate_id]
  | conditional condition consequence otherwise =>
    rw [NodeKind.relocate, condition.relocate_id, consequence.relocate_id,
      Node.relocateOptional_id otherwise]
  | case subject branches otherwise =>
    rw [NodeKind.relocate, subject.relocate_id, Pair.relocateAll_id branches,
      Node.relocateOptional_id otherwise]
  | try_ body handlers cleanup =>
    rw [NodeKind.relocate, body.relocate_id, CatchClause.relocateAll_id handlers,
      Node.relocateOptional_id cleanup]
  | for_ targets iterable body =>
    rw [NodeKind.relocate, Target.relocate_id, List.map_id, iterable.relocate_id,
      body.relocate_id]
  | while_ condition body => rw [NodeKind.relocate, condition.relocate_id, body.relocate_id]
  | enum flags members => rw [NodeKind.relocate, EnumMember.relocate_id, List.map_id]
  | unary _ n | iter n | mutable n | throw n | yieldFrom n =>
    rw [NodeKind.relocate, n.relocate_id]
  | do_ items | object items | module_ items | exception items | tuple items | block items =>
    rw [NodeKind.relocate, Node.relocateAll_id items]
  | return_ value | yield value => rw [NodeKind.relocate, Node.relocateOptional_id value]
  | mapping pairs => rw [NodeKind.relocate, Pair.relocateAll_id pairs]
  | list content => rw [NodeKind.relocate, content.relocate_id]

theorem Node.relocateAll_id (ns : List Node) : Node.relocateAll id ns = ns := by
  cases ns with
  | nil => rfl
  | cons n ns => rw [Node.relocateAll, n.relocate_id, Node.relocateAll_id ns]

theorem Node.relocateOptional_id (n : Option Node) : Node.relocateOptional id n = n := by
  cases n with
  | none => rfl
  | some n => rw [Node.relocateOptional, n.relocate_id]

theorem Pair.relocate_id (p : Pair) : p.relocate id = p := by
  obtain ⟨key, value⟩ := p
  rw [Pair.relocate, key.relocate_id, value.relocate_id]

theorem Pair.relocateAll_id (ps : List Pair) : Pair.relocateAll id ps = ps := by
  cases ps with
  | nil => rfl
  | cons p ps => rw [Pair.relocateAll, p.relocate_id, Pair.relocateAll_id ps]

theorem Trailer.relocate_id (t : Trailer) : t.relocate id = t := by
  match t with
  | .attribute name => rfl
  | .call positional keyword =>
    rw [Trailer.relocate, Node.relocateAll_id positional, KeywordArgument.relocateAll_id keyword]
  | .index operand => rw [Trailer.relocate, operand.relocate_id]

theorem Trailer.relocateAll_id (ts : List Trailer) : Trailer.relocateAll id ts = ts := by
  cases ts with
  | nil => rfl
  | cons t ts => rw [Trailer.relocateAll, t.relocate_id, Trailer.relocateAll_id ts]

theorem KeywordArgument.relocate_id (a : KeywordArgument) : a.relocate id = a := by
  obtain ⟨name, value⟩ := a
  rw [KeywordArgument.relocate, value.relocate_id]

theorem KeywordArgument.relocateAll_id (as : List KeywordArgument) :
    KeywordArgument.relocateAll id as = as := by
  cases as with
  | nil => rfl
  | cons a as => rw [KeywordArgument.relocateAll, a.relocate_id, KeywordArgument.relocateAll_id as]

theorem KeywordParameter.relocate_id (p : KeywordParameter) : p.relocate id = p := by
  obtain ⟨typeHint, name, kind⟩ := p
  rw [KeywordParameter.relocate, typeHint.relocate_id, kind.relocate_id]

theorem KeywordParameter.relocateAll_id (ps : List KeywordParameter) :
    KeywordParameter.relocateAll id ps = ps := by
  cases ps with
  | nil => rfl
  | cons p ps =>
    rw [KeywordParameter.relocateAll, p.relocate_id, KeywordParameter.relocateAll_id ps]

theorem KeywordParameterKind.relocate_id (kind : KeywordParameterKind) :
    kind.relocate id = kind := by
  cases kind with
  | required | collector => rfl
  | default value => rw [KeywordParameterKind.relocate, value.relocate_id]

theorem CatchClause.relocate_id (c : CatchClause) : c.relocate id = c := by
  obtain ⟨exceptionType, binding, handler, position⟩ := c
  rw [CatchClause.relocate, handler.relocate_id, id]

theorem CatchClause.relocateAll_id (cs : List CatchClause) : CatchClause.relocateAll id cs = cs := by
  cases cs with
  | nil => rfl
  | cons c cs => rw [CatchClause.relocateAll, c.relocate_id, CatchClause.relocateAll_id cs]

theorem ListLiteral.relocate_id (l : ListLiteral) : l.relocate id = l := by
  cases l with
  | items items => rw [ListLiteral.relocate, Node.relocateAll_id items]
  | range start stop step =>
    rw [ListLiteral.relocate, start.relocate_id, Node.relocateOptional_id stop,
      Node.relocateOptional_id step]

end

theorem Program.relocate_id (p : Program) : p.relocate id = p := by
  rw [Program.relocate, Node.relocateAll_id p.body]

/-! ### Equality up to positions -/

mutual

theorem TypeHint.same_of_relocate {a b : TypeHint} (h : a.relocate f = b.relocate f) :
    a.same b := by
  obtain ⟨name, parameters, position⟩ := a
  obtain ⟨name', parameters', position'⟩ := b
  simp only [TypeHint.relocate, TypeHint.mk.injEq] at h
  simp [TypeHint.same, h.1, TypeHint.sameAll_of_relocate h.2.1]

theorem TypeHint.sameAll_of_relocate {as bs : List TypeHint}
    (h : TypeHint.relocateAll f as = TypeHint.relocateAll f bs) : TypeHint.sameAll as bs := by
  cases as <;> cases bs <;> simp only [TypeHint.relocateAll, reduceCtorEq] at h
  · rfl
  · injection h with hhead htail
    simp [TypeHint.sameAll, TypeHint.same_of_relocate hhead, TypeHint.sameAll_of_relocate htail]

end

theorem Target.same_of_relocate {a b : Target} (h : a.relocate f = b.relocate f) : a.same b := by
  obtain ⟨modifier, hint, name, position⟩ := a
  obtain ⟨modifier', hint', name', position'⟩ := b
  simp only [Target.relocate, Target.mk.injEq] at h
  obtain ⟨rfl, hhint, rfl, -⟩ := h
  cases hint <;> cases hint' <;> simp only [Option.map_some, Option.map_none, reduceCtorEq] at hhint
  · simp [Target.same, sameOption]
  · injection hhint with hhint
    simp [Target.same, sameOption, TypeHint.same_of_relocate hhint]

theorem Declaration.same_of_relocate {a b : Declaration} (h : a.relocate f = b.relocate f) :
    a.same b := by
  simp only [Declaration.relocate, Declaration.mk.injEq] at h
  simp [Declaration.same, h.1, TypeHint.same_of_relocate h.2.1, h.2.2]

theorem PositionalParameter.same_of_relocate {a b : PositionalParameter}
    (h : a.relocate f = b.relocate f) : a.same b := by
  simp only [PositionalParameter.relocate, PositionalParameter.mk.injEq] at h
  simp [PositionalParameter.same, TypeHint.same_of_relocate h.1, h.2.1, h.2.2]

theorem EnumMember.same_of_relocate {a b : EnumMember} (h : a.relocate f = b.relocate f) :
    a.same b := by
  simp only [EnumMember.relocate, EnumMember.mk.injEq] at h
  simp [EnumMember.same, h.1, h.2.1]

/-- Lists that are the same when relocated are the same up to positions if this holds of their
elements. -/
theorem sameList_of_map {α β : Type} {same : α → α → Bool} {g : α → β}
    (hg : ∀ {a b}, g a = g b → same a b) {as bs : List α} (h : as.map g = bs.map g) :
    sameList same as bs := by
  induction as generalizing bs with
  | nil =>
    obtain rfl := List.map_eq_nil_iff.1 h.symm
    rfl
  | cons a as ih =>
    obtain ⟨b, bs, rfl, hb, hbs⟩ := List.map_eq_cons_iff.1 h.symm
    simp [sameList, hg hb.symm, ih hbs.symm]

mutual

/-- **Relocation changes positions only**: trees that it makes the same are the same up to
positions. -/
theorem Node.same_of_relocate {a b : Node} (h : a.relocate f = b.relocate f) : a.same b := by
  obtain ⟨kind, position⟩ := a
  obtain ⟨kind', position'⟩ := b
  simp only [Node.relocate, Node.mk.injEq] at h
  rw [Node.same, NodeKind.same_of_relocate h.1]
termination_by structural a

theorem NodeKind.same_of_relocate {a b : NodeKind} (h : a.relocate f = b.relocate f) :
    a.same b := by
  cases a with
  | literal value =>
    cases b <;> simp only [NodeKind.relocate, reduceCtorEq] at h
    injection h with h
    simp [NodeKind.same, h]
  | identifier name =>
    cases b <;> simp only [NodeKind.relocate, reduceCtorEq] at h
    injection h with h
    simp [NodeKind.same, h]
  | declaration value =>
    cases b <;> simp only [NodeKind.relocate, reduceCtorEq] at h
    injection h with h
    simp [NodeKind.same, Declaration.same_of_relocate h]
  | assignment targets operator value =>
    cases b <;> simp only [NodeKind.relocate, reduceCtorEq] at h
    injection h with htargets hoperator hvalue
    simp [NodeKind.same, sameList_of_map Target.same_of_relocate htargets, hoperator,
      Node.same_of_relocate hvalue]
  | binary operator operands =>
    cases b <;> simp only [NodeKind.relocate, reduceCtorEq] at h
    injection h with hoperator hoperands
    simp [NodeKind.same, hoperator, Node.sameAll_of_relocate hoperands]
  | unary operator operand =>
    cases b <;> simp only [NodeKind.relocate, reduceCtorEq] at h
    injection h with hoperator hoperand
    simp [NodeKind.same, hoperator, Node.same_of_relocate hoperand]
  | primary base trailers =>
    cases b <;> simp only [NodeKind.relocate, reduceCtorEq] at h
    injection h with hbase htrailers
    simp [NodeKind.same, Node.same_of_relocate hbase, Trailer.sameAll_of_relocate htrailers]
  | lambda positional keyword body =>
    cases b <;> simp only [NodeKind.relocate, reduceCtorEq] at h
    injection h with hpositional hkeyword hbody
    simp [NodeKind.same, sameList_of_map PositionalParameter.same_of_relocate hpositional,
      KeywordParameter.sameAll_of_relocate hkeyword, Node.same_of_relocate hbody]
  | conditional condition consequence otherwise =>
    cases b <;> simp only [NodeKind.relocate, reduceCtorEq] at h
    injection h with hcondition hconsequence hotherwise
    simp [NodeKind.same, Node.same_of_relocate hcondition, Node.same_of_relocate hconsequence,
      Node.sameOptional_of_relocate hotherwise]
  | case subject branches otherwise =>
    cases b <;> simp only [NodeKind.relocate, reduceCtorEq] at h
    injection h with hsubject hbranches hotherwise
    simp [NodeKind.same, Node.same_of_relocate hsubject, Pair.sameAll_of_relocate hbranches,
      Node.sameOptional_of_relocate hotherwise]
  | try_ body handlers cleanup =>
    cases b <;> simp only [NodeKind.relocate, reduceCtorEq] at h
    injection h with hbody hhandlers hcleanup
    simp [NodeKind.same, Node.same_of_relocate hbody, CatchClause.sameAll_of_relocate hhandlers,
      Node.sameOptional_of_relocate hcleanup]
  | for_ targets iterable body =>
    cases b <;> simp only [NodeKind.relocate, reduceCtorEq] at h
    injection h with htargets hiterable hbody
    simp [NodeKind.same, sameList_of_map Target.same_of_relocate htargets,
      Node.same_of_relocate hiterable, Node.same_of_relocate hbody]
  | while_ condition body =>
    cases b <;> simp only [NodeKind.relocate, reduceCtorEq] at h
    injection h with hcondition hbody
    simp [NodeKind.same, Node.same_of_relocate hcondition, Node.same_of_relocate hbody]
  | iter n =>
    cases b <;> simp only [NodeKind.relocate, reduceCtorEq] at h
    injection h with h
    simp [NodeKind.same, Node.same_of_relocate h]
  | do_ items =>
    cases b <;> simp only [NodeKind.relocate, reduceCtorEq] at h
    injection h with h
    simp [NodeKind.same, Node.sameAll_of_relocate h]
  | object items =>
    cases b <;> simp only [NodeKind.relocate, reduceCtorEq] at h
    injection h with h
    simp [NodeKind.same, Node.sameAll_of_relocate h]
  | module_ items =>
    cases b <;> simp only [NodeKind.relocate, reduceCtorEq] at h
    injection h with h
    simp [NodeKind.same, Node.sameAll_of_relocate h]
  | exception items =>
    cases b <;> simp only [NodeKind.relocate, reduceCtorEq] at h
    injection h with h
    simp [NodeKind.same, Node.sameAll_of_relocate h]
  | enum flags members =>
    cases b <;> simp only [NodeKind.relocate, reduceCtorEq] at h
    injection h with hflags hmembers
    simp [NodeKind.same, hflags, sameList_of_map EnumMember.same_of_relocate hmembers]
  | mutable n =>
    cases b <;> simp only [NodeKind.relocate, reduceCtorEq] at h
    injection h with h
    simp [NodeKind.same, Node.same_of_relocate h]
  | throw n =>
    cases b <;> simp only [NodeKind.relocate, reduceCtorEq] at h
    injection h with h
    simp [NodeKind.same, Node.same_of_relocate h]
  | return_ n =>
    cases b <;> simp only [NodeKind.relocate, reduceCtorEq] at h
    injection h with h
    simp [NodeKind.same, Node.sameOptional_of_relocate h]
  | yield n =>
    cases b <;> simp only [NodeKind.relocate, reduceCtorEq] at h
    injection h with h
    simp [NodeKind.same, Node.sameOptional_of_relocate h]
  | yieldFrom n =>
    cases b <;> simp only [NodeKind.relocate, reduceCtorEq] at h
    injection h with h
    simp [NodeKind.same, Node.same_of_relocate h]
  | mapping pairs =>
    cases b <;> simp only [NodeKind.relocate, reduceCtorEq] at h
    injection h with h
    simp [NodeKind.same, Pair.sameAll_of_relocate h]
  | list content =>
    cases b <;> simp only [NodeKind.relocate, reduceCtorEq] at h
    injection h with h
    simp [NodeKind.same, ListLiteral.same_of_relocate h]
  | tuple items =>
    cases b <;> simp only [NodeKind.relocate, reduceCtorEq] at h
    injection h with h
    simp [NodeKind.same, Node.sameAll_of_relocate h]
  | block items =>
    cases b <;> simp only [NodeKind.relocate, reduceCtorEq] at h
    injection h with h
    simp [NodeKind.same, Node.sameAll_of_relocate h]
  | break_ | continue_ | pass =>
    cases b <;> simp only [NodeKind.relocate, reduceCtorEq] at h
    simp [NodeKind.same]
termination_by structural a

theorem Node.sameAll_of_relocate {as bs : List Node}
    (h : Node.relocateAll f as = Node.relocateAll f bs) : Node.sameAll as bs := by
  cases as <;> cases bs <;> simp only [Node.relocateAll, reduceCtorEq] at h
  · simp [Node.sameAll]
  · injection h with hhead htail
    simp [Node.sameAll, Node.same_of_relocate hhead, Node.sameAll_of_relocate htail]
termination_by structural as

theorem Node.sameOptional_of_relocate {a b : Option Node}
    (h : Node.relocateOptional f a = Node.relocateOptional f b) : Node.sameOptional a b := by
  cases a <;> cases b <;> simp only [Node.relocateOptional, reduceCtorEq] at h
  · simp
  · injection h with h
    simp [Node.same_of_relocate h]
termination_by structural a

theorem Pair.same_of_relocate {a b : Pair} (h : a.relocate f = b.relocate f) : a.same b := by
  obtain ⟨key, value⟩ := a
  obtain ⟨key', value'⟩ := b
  simp only [Pair.relocate, Pair.mk.injEq] at h
  simp [Pair.same, Node.same_of_relocate h.1, Node.same_of_relocate h.2]
termination_by structural a

theorem Pair.sameAll_of_relocate {as bs : List Pair}
    (h : Pair.relocateAll f as = Pair.relocateAll f bs) : Pair.sameAll as bs := by
  cases as <;> cases bs <;> simp only [Pair.relocateAll, reduceCtorEq] at h
  · simp [Pair.sameAll]
  · injection h with hhead htail
    simp [Pair.sameAll, Pair.same_of_relocate hhead, Pair.sameAll_of_relocate htail]
termination_by structural as

theorem Trailer.same_of_relocate {a b : Trailer} (h : a.relocate f = b.relocate f) :
    a.same b := by
  cases a <;> cases b <;> simp only [Trailer.relocate, reduceCtorEq] at h
  · injection h with h
    simp [Trailer.same, h]
  · injection h with hpositional hkeyword
    simp [Trailer.same, Node.sameAll_of_relocate hpositional,
      KeywordArgument.sameAll_of_relocate hkeyword]
  · injection h with h
    simp [Trailer.same, Node.same_of_relocate h]
termination_by structural a

theorem Trailer.sameAll_of_relocate {as bs : List Trailer}
    (h : Trailer.relocateAll f as = Trailer.relocateAll f bs) : Trailer.sameAll as bs := by
  cases as <;> cases bs <;> simp only [Trailer.relocateAll, reduceCtorEq] at h
  · simp [Trailer.sameAll]
  · injection h with hhead htail
    simp [Trailer.sameAll, Trailer.same_of_relocate hhead, Trailer.sameAll_of_relocate htail]
termination_by structural as

theorem KeywordArgument.same_of_relocate {a b : KeywordArgument}
    (h : a.relocate f = b.relocate f) : a.same b := by
  obtain ⟨name, value⟩ := a
  obtain ⟨name', value'⟩ := b
  simp only [KeywordArgument.relocate, KeywordArgument.mk.injEq] at h
  simp [KeywordArgument.same, h.1, Node.same_of_relocate h.2]
termination_by structural a

theorem KeywordArgument.sameAll_of_relocate {as bs : List KeywordArgument}
    (h : KeywordArgument.relocateAll f as = KeywordArgument.relocateAll f bs) :
    KeywordArgument.sameAll as bs := by
  cases as <;> cases bs <;> simp only [KeywordArgument.relocateAll, reduceCtorEq] at h
  · simp [KeywordArgument.sameAll]
  · injection h with hhead htail
    simp [KeywordArgument.sameAll, KeywordArgument.same_of_relocate hhead,
      KeywordArgument.sameAll_of_relocate htail]
termination_by structural as

theorem KeywordParameter.same_of_relocate {a b : KeywordParameter}
    (h : a.relocate f = b.relocate f) : a.same b := by
  obtain ⟨typeHint, name, kind⟩ := a
  obtain ⟨typeHint', name', kind'⟩ := b
  simp only [KeywordParameter.relocate, KeywordParameter.mk.injEq] at h
  simp [KeywordParameter.same, TypeHint.same_of_relocate h.1, h.2.1,
    KeywordParameterKind.same_of_relocate h.2.2]
termination_by structural a

theorem KeywordParameter.sameAll_of_relocate {as bs : List KeywordParameter}
    (h : KeywordParameter.relocateAll f as = KeywordParameter.relocateAll f bs) :
    KeywordParameter.sameAll as bs := by
  cases as <;> cases bs <;> simp only [KeywordParameter.relocateAll, reduceCtorEq] at h
  · simp [KeywordParameter.sameAll]
  · injection h with hhead htail
    simp [KeywordParameter.sameAll, KeywordParameter.same_of_relocate hhead,
      KeywordParameter.sameAll_of_relocate htail]
termination_by structural as

theorem KeywordParameterKind.same_of_relocate {a b : KeywordParameterKind}
    (h : a.relocate f = b.relocate f) : a.same b := by
  cases a <;> cases b <;> simp only [KeywordParameterKind.relocate, reduceCtorEq] at h
  · simp [KeywordParameterKind.same]
  · injection h with h
    simp [KeywordParameterKind.same, Node.same_of_relocate h]
  · simp [KeywordParameterKind.same]
termination_by structural a

theorem CatchClause.same_of_relocate {a b : CatchClause} (h : a.relocate f = b.relocate f) :
    a.same b := by
  obtain ⟨exceptionType, binding, handler, position⟩ := a
  obtain ⟨exceptionType', binding', handler', position'⟩ := b
  simp only [CatchClause.relocate, CatchClause.mk.injEq] at h
  simp [CatchClause.same, h.1, h.2.1, Node.same_of_relocate h.2.2.1]
termination_by structural a

theorem CatchClause.sameAll_of_relocate {as bs : List CatchClause}
    (h : CatchClause.relocateAll f as = CatchClause.relocateAll f bs) :
    CatchClause.sameAll as bs := by
  cases as <;> cases bs <;> simp only [CatchClause.relocateAll, reduceCtorEq] at h
  · simp [CatchClause.sameAll]
  · injection h with hhead htail
    simp [CatchClause.sameAll, CatchClause.same_of_relocate hhead,
      CatchClause.sameAll_of_relocate htail]
termination_by structural as

theorem ListLiteral.same_of_relocate {a b : ListLiteral} (h : a.relocate f = b.relocate f) :
    a.same b := by
  cases a <;> cases b <;> simp only [ListLiteral.relocate, reduceCtorEq] at h
  · injection h with h
    simp [ListLiteral.same, Node.sameAll_of_relocate h]
  · injection h with hstart hstop hstep
    simp [ListLiteral.same, Node.same_of_relocate hstart, Node.sameOptional_of_relocate hstop,
      Node.sameOptional_of_relocate hstep]
termination_by structural a

end

theorem Program.same_of_relocate {a b : Program} (h : a.relocate f = b.relocate f) :
    a.same b := by
  injection h with h
  exact Node.sameAll_of_relocate h

end DrakeSyntax
