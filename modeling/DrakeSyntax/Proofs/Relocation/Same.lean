import DrakeSyntax.Proofs.Relocation

/-!
# Sameness is equality at one position

Trees are the same up to positions if and only if they become one tree when a single position is
put in place of all of theirs (`Program.same_iff_relocate`). That relocation changes nothing but
positions gives one direction; here is the other: sameness passes over every position and over
nothing else, so what is the same up to positions has all of the rest in common
(`Node.relocate_of_same`, by induction on the tree).
-/

namespace DrakeSyntax

variable {p : Position}

/-! ### Types and what contains no nodes -/

mutual

theorem TypeHint.relocate_of_same {a b : TypeHint} (h : a.same b) :
    a.relocate (fun _ => p) = b.relocate fun _ => p := by
  obtain ⟨name, parameters, position⟩ := a
  obtain ⟨name', parameters', position'⟩ := b
  simp only [TypeHint.same, Bool.and_eq_true, beq_iff_eq] at h
  rw [TypeHint.relocate, TypeHint.relocate, h.1, TypeHint.relocateAll_of_sameAll h.2]

theorem TypeHint.relocateAll_of_sameAll {as bs : List TypeHint} (h : TypeHint.sameAll as bs) :
    TypeHint.relocateAll (fun _ => p) as = TypeHint.relocateAll (fun _ => p) bs := by
  cases as <;> cases bs <;> simp only [TypeHint.sameAll, Bool.false_eq_true, Bool.and_eq_true] at h
  · rfl
  · rw [TypeHint.relocateAll, TypeHint.relocateAll, TypeHint.relocate_of_same h.1,
      TypeHint.relocateAll_of_sameAll h.2]

end

/-- What is made of the elements of lists is the same if this holds of elements that are the
same. -/
theorem map_of_sameList {α β : Type} {same : α → α → Bool} {g : α → β} {as bs : List α}
    (h : sameList same as bs) (hg : ∀ {a b}, same a b → g a = g b) : as.map g = bs.map g := by
  induction sameList_iff.1 h with
  | nil => rfl
  | cons hab hrest ih => rw [List.map_cons, List.map_cons, hg hab, ih (sameList_iff.2 hrest)]

theorem Target.relocate_of_same {a b : Target} (h : a.same b) :
    a.relocate (fun _ => p) = b.relocate fun _ => p := by
  obtain ⟨modifier, hint, name, position⟩ := a
  obtain ⟨modifier', hint', name', position'⟩ := b
  simp only [Target.same, Bool.and_eq_true, beq_iff_eq] at h
  obtain ⟨⟨rfl, hhint⟩, rfl⟩ := h
  cases hint <;> cases hint' <;> simp only [sameOption, Bool.false_eq_true] at hhint
  · rfl
  · simp only [Target.relocate, Option.map_some, TypeHint.relocate_of_same hhint]

theorem Declaration.relocate_of_same {a b : Declaration} (h : a.same b) :
    a.relocate (fun _ => p) = b.relocate fun _ => p := by
  simp only [Declaration.same, Bool.and_eq_true, beq_iff_eq] at h
  rw [Declaration.relocate, Declaration.relocate, h.1.1, TypeHint.relocate_of_same h.1.2, h.2]

theorem PositionalParameter.relocate_of_same {a b : PositionalParameter} (h : a.same b) :
    a.relocate (fun _ => p) = b.relocate fun _ => p := by
  simp only [PositionalParameter.same, Bool.and_eq_true, beq_iff_eq] at h
  rw [PositionalParameter.relocate, PositionalParameter.relocate,
    TypeHint.relocate_of_same h.1.1, h.1.2, h.2]

theorem EnumMember.relocate_of_same {a b : EnumMember} (h : a.same b) :
    a.relocate (fun _ => p) = b.relocate fun _ => p := by
  simp only [EnumMember.same, Bool.and_eq_true, beq_iff_eq] at h
  rw [EnumMember.relocate, EnumMember.relocate, h.1, h.2]

/-! ### Nodes -/

mutual

/-- **Sameness passes over positions only**: trees that are the same up to positions become one
tree when all of their positions are the same. -/
theorem Node.relocate_of_same {a b : Node} (h : a.same b) :
    a.relocate (fun _ => p) = b.relocate fun _ => p := by
  obtain ⟨kind, position⟩ := a
  obtain ⟨kind', position'⟩ := b
  rw [Node.same] at h
  rw [Node.relocate, Node.relocate, NodeKind.relocate_of_same h]
termination_by structural a

theorem NodeKind.relocate_of_same {a b : NodeKind} (h : a.same b) :
    a.relocate (fun _ => p) = b.relocate fun _ => p := by
  -- the two are of one kind, and have the parts of that kind in common
  cases a with
  | literal value =>
    cases b <;> simp only [NodeKind.same, Bool.false_eq_true, beq_iff_eq] at h
    rw [h]
  | identifier name =>
    cases b <;> simp only [NodeKind.same, Bool.false_eq_true, beq_iff_eq] at h
    rw [h]
  | declaration value =>
    cases b <;> simp only [NodeKind.same, Bool.false_eq_true] at h
    rw [NodeKind.relocate, NodeKind.relocate, Declaration.relocate_of_same h]
  | assignment targets operator value =>
    cases b <;> simp only [NodeKind.same, Bool.false_eq_true, Bool.and_eq_true, beq_iff_eq] at h
    rw [NodeKind.relocate, NodeKind.relocate, map_of_sameList h.1.1 Target.relocate_of_same, h.1.2,
      Node.relocate_of_same h.2]
  | binary operator operands =>
    cases b <;> simp only [NodeKind.same, Bool.false_eq_true, Bool.and_eq_true, beq_iff_eq] at h
    rw [NodeKind.relocate, NodeKind.relocate, h.1, Node.relocateAll_of_sameAll h.2]
  | unary operator operand =>
    cases b <;> simp only [NodeKind.same, Bool.false_eq_true, Bool.and_eq_true, beq_iff_eq] at h
    rw [NodeKind.relocate, NodeKind.relocate, h.1, Node.relocate_of_same h.2]
  | primary base trailers =>
    cases b <;> simp only [NodeKind.same, Bool.false_eq_true, Bool.and_eq_true] at h
    rw [NodeKind.relocate, NodeKind.relocate, Node.relocate_of_same h.1,
      Trailer.relocateAll_of_sameAll h.2]
  | lambda positional keyword body =>
    cases b <;> simp only [NodeKind.same, Bool.false_eq_true, Bool.and_eq_true] at h
    rw [NodeKind.relocate, NodeKind.relocate,
      map_of_sameList h.1.1 PositionalParameter.relocate_of_same,
      KeywordParameter.relocateAll_of_sameAll h.1.2, Node.relocate_of_same h.2]
  | conditional condition consequence otherwise =>
    cases b <;> simp only [NodeKind.same, Bool.false_eq_true, Bool.and_eq_true] at h
    rw [NodeKind.relocate, NodeKind.relocate, Node.relocate_of_same h.1.1,
      Node.relocate_of_same h.1.2, Node.relocateOptional_of_sameOptional h.2]
  | case subject branches otherwise =>
    cases b <;> simp only [NodeKind.same, Bool.false_eq_true, Bool.and_eq_true] at h
    rw [NodeKind.relocate, NodeKind.relocate, Node.relocate_of_same h.1.1,
      Pair.relocateAll_of_sameAll h.1.2, Node.relocateOptional_of_sameOptional h.2]
  | try_ body handlers cleanup =>
    cases b <;> simp only [NodeKind.same, Bool.false_eq_true, Bool.and_eq_true] at h
    rw [NodeKind.relocate, NodeKind.relocate, Node.relocate_of_same h.1.1,
      CatchClause.relocateAll_of_sameAll h.1.2, Node.relocateOptional_of_sameOptional h.2]
  | for_ targets iterable body =>
    cases b <;> simp only [NodeKind.same, Bool.false_eq_true, Bool.and_eq_true] at h
    rw [NodeKind.relocate, NodeKind.relocate, map_of_sameList h.1.1 Target.relocate_of_same,
      Node.relocate_of_same h.1.2, Node.relocate_of_same h.2]
  | while_ condition body =>
    cases b <;> simp only [NodeKind.same, Bool.false_eq_true, Bool.and_eq_true] at h
    rw [NodeKind.relocate, NodeKind.relocate, Node.relocate_of_same h.1,
      Node.relocate_of_same h.2]
  | enum flags members =>
    cases b <;> simp only [NodeKind.same, Bool.false_eq_true, Bool.and_eq_true, beq_iff_eq] at h
    rw [NodeKind.relocate, NodeKind.relocate, h.1, map_of_sameList h.2 EnumMember.relocate_of_same]
  | iter n | mutable n | throw n | yieldFrom n =>
    cases b <;> simp only [NodeKind.same, Bool.false_eq_true] at h
    rw [NodeKind.relocate, NodeKind.relocate, Node.relocate_of_same h]
  | do_ items | object items | module_ items | exception items | tuple items | block items =>
    cases b <;> simp only [NodeKind.same, Bool.false_eq_true] at h
    rw [NodeKind.relocate, NodeKind.relocate, Node.relocateAll_of_sameAll h]
  | return_ value | yield value =>
    cases b <;> simp only [NodeKind.same, Bool.false_eq_true] at h
    rw [NodeKind.relocate, NodeKind.relocate, Node.relocateOptional_of_sameOptional h]
  | mapping pairs =>
    cases b <;> simp only [NodeKind.same, Bool.false_eq_true] at h
    rw [NodeKind.relocate, NodeKind.relocate, Pair.relocateAll_of_sameAll h]
  | list content =>
    cases b <;> simp only [NodeKind.same, Bool.false_eq_true] at h
    rw [NodeKind.relocate, NodeKind.relocate, ListLiteral.relocate_of_same h]
  | break_ | continue_ | pass =>
    cases b <;> simp only [NodeKind.same, Bool.false_eq_true] at h
    rfl
termination_by structural a

theorem Node.relocateAll_of_sameAll {as bs : List Node} (h : Node.sameAll as bs) :
    Node.relocateAll (fun _ => p) as = Node.relocateAll (fun _ => p) bs := by
  cases as <;> cases bs <;> simp only [Node.sameAll, Bool.false_eq_true, Bool.and_eq_true] at h
  · rfl
  · rw [Node.relocateAll, Node.relocateAll, Node.relocate_of_same h.1,
      Node.relocateAll_of_sameAll h.2]
termination_by structural as

theorem Node.relocateOptional_of_sameOptional {a b : Option Node} (h : Node.sameOptional a b) :
    Node.relocateOptional (fun _ => p) a = Node.relocateOptional (fun _ => p) b := by
  cases a <;> cases b <;> simp only [Node.sameOptional, Bool.false_eq_true] at h
  · rfl
  · rw [Node.relocateOptional, Node.relocateOptional, Node.relocate_of_same h]
termination_by structural a

theorem Pair.relocate_of_same {a b : Pair} (h : a.same b) :
    a.relocate (fun _ => p) = b.relocate fun _ => p := by
  obtain ⟨key, value⟩ := a
  obtain ⟨key', value'⟩ := b
  simp only [Pair.same, Bool.and_eq_true] at h
  rw [Pair.relocate, Pair.relocate, Node.relocate_of_same h.1, Node.relocate_of_same h.2]
termination_by structural a

theorem Pair.relocateAll_of_sameAll {as bs : List Pair} (h : Pair.sameAll as bs) :
    Pair.relocateAll (fun _ => p) as = Pair.relocateAll (fun _ => p) bs := by
  cases as <;> cases bs <;> simp only [Pair.sameAll, Bool.false_eq_true, Bool.and_eq_true] at h
  · rfl
  · rw [Pair.relocateAll, Pair.relocateAll, Pair.relocate_of_same h.1,
      Pair.relocateAll_of_sameAll h.2]
termination_by structural as

theorem Trailer.relocate_of_same {a b : Trailer} (h : a.same b) :
    a.relocate (fun _ => p) = b.relocate fun _ => p := by
  cases a <;> cases b <;>
    simp only [Trailer.same, Bool.false_eq_true, Bool.and_eq_true, beq_iff_eq] at h
  · rw [h]
  · rw [Trailer.relocate, Trailer.relocate, Node.relocateAll_of_sameAll h.1,
      KeywordArgument.relocateAll_of_sameAll h.2]
  · rw [Trailer.relocate, Trailer.relocate, Node.relocate_of_same h]
termination_by structural a

theorem Trailer.relocateAll_of_sameAll {as bs : List Trailer} (h : Trailer.sameAll as bs) :
    Trailer.relocateAll (fun _ => p) as = Trailer.relocateAll (fun _ => p) bs := by
  cases as <;> cases bs <;> simp only [Trailer.sameAll, Bool.false_eq_true, Bool.and_eq_true] at h
  · rfl
  · rw [Trailer.relocateAll, Trailer.relocateAll, Trailer.relocate_of_same h.1,
      Trailer.relocateAll_of_sameAll h.2]
termination_by structural as

theorem KeywordArgument.relocate_of_same {a b : KeywordArgument} (h : a.same b) :
    a.relocate (fun _ => p) = b.relocate fun _ => p := by
  obtain ⟨name, value⟩ := a
  obtain ⟨name', value'⟩ := b
  simp only [KeywordArgument.same, Bool.and_eq_true, beq_iff_eq] at h
  rw [KeywordArgument.relocate, KeywordArgument.relocate, h.1, Node.relocate_of_same h.2]
termination_by structural a

theorem KeywordArgument.relocateAll_of_sameAll {as bs : List KeywordArgument}
    (h : KeywordArgument.sameAll as bs) :
    KeywordArgument.relocateAll (fun _ => p) as = KeywordArgument.relocateAll (fun _ => p) bs := by
  cases as <;> cases bs <;>
    simp only [KeywordArgument.sameAll, Bool.false_eq_true, Bool.and_eq_true] at h
  · rfl
  · rw [KeywordArgument.relocateAll, KeywordArgument.relocateAll,
      KeywordArgument.relocate_of_same h.1, KeywordArgument.relocateAll_of_sameAll h.2]
termination_by structural as

theorem KeywordParameter.relocate_of_same {a b : KeywordParameter} (h : a.same b) :
    a.relocate (fun _ => p) = b.relocate fun _ => p := by
  obtain ⟨typeHint, name, kind⟩ := a
  obtain ⟨typeHint', name', kind'⟩ := b
  simp only [KeywordParameter.same, Bool.and_eq_true, beq_iff_eq] at h
  rw [KeywordParameter.relocate, KeywordParameter.relocate, TypeHint.relocate_of_same h.1.1, h.1.2,
    KeywordParameterKind.relocate_of_same h.2]
termination_by structural a

theorem KeywordParameter.relocateAll_of_sameAll {as bs : List KeywordParameter}
    (h : KeywordParameter.sameAll as bs) :
    KeywordParameter.relocateAll (fun _ => p) as =
      KeywordParameter.relocateAll (fun _ => p) bs := by
  cases as <;> cases bs <;>
    simp only [KeywordParameter.sameAll, Bool.false_eq_true, Bool.and_eq_true] at h
  · rfl
  · rw [KeywordParameter.relocateAll, KeywordParameter.relocateAll,
      KeywordParameter.relocate_of_same h.1, KeywordParameter.relocateAll_of_sameAll h.2]
termination_by structural as

theorem KeywordParameterKind.relocate_of_same {a b : KeywordParameterKind} (h : a.same b) :
    a.relocate (fun _ => p) = b.relocate fun _ => p := by
  cases a <;> cases b <;> simp only [KeywordParameterKind.same, Bool.false_eq_true] at h
  · rfl
  · rw [KeywordParameterKind.relocate, KeywordParameterKind.relocate, Node.relocate_of_same h]
  · rfl
termination_by structural a

theorem CatchClause.relocate_of_same {a b : CatchClause} (h : a.same b) :
    a.relocate (fun _ => p) = b.relocate fun _ => p := by
  obtain ⟨exceptionType, binding, handler, position⟩ := a
  obtain ⟨exceptionType', binding', handler', position'⟩ := b
  simp only [CatchClause.same, Bool.and_eq_true, beq_iff_eq] at h
  rw [CatchClause.relocate, CatchClause.relocate, h.1.1, h.1.2, Node.relocate_of_same h.2]
termination_by structural a

theorem CatchClause.relocateAll_of_sameAll {as bs : List CatchClause}
    (h : CatchClause.sameAll as bs) :
    CatchClause.relocateAll (fun _ => p) as = CatchClause.relocateAll (fun _ => p) bs := by
  cases as <;> cases bs <;>
    simp only [CatchClause.sameAll, Bool.false_eq_true, Bool.and_eq_true] at h
  · rfl
  · rw [CatchClause.relocateAll, CatchClause.relocateAll, CatchClause.relocate_of_same h.1,
      CatchClause.relocateAll_of_sameAll h.2]
termination_by structural as

theorem ListLiteral.relocate_of_same {a b : ListLiteral} (h : a.same b) :
    a.relocate (fun _ => p) = b.relocate fun _ => p := by
  cases a <;> cases b <;> simp only [ListLiteral.same, Bool.false_eq_true, Bool.and_eq_true] at h
  · rw [ListLiteral.relocate, ListLiteral.relocate, Node.relocateAll_of_sameAll h]
  · rw [ListLiteral.relocate, ListLiteral.relocate, Node.relocate_of_same h.1.1,
      Node.relocateOptional_of_sameOptional h.1.2, Node.relocateOptional_of_sameOptional h.2]
termination_by structural a

end

/-- **Equality of programs ignores positions and nothing else**: programs are the same if and only
if putting one position in place of all of theirs makes them identical, whichever position that
is. -/
theorem Program.same_iff_relocate (a b : Program) (p : Position) :
    a.same b ↔ a.relocate (fun _ => p) = b.relocate fun _ => p := by
  constructor
  · intro h
    rw [Program.relocate, Program.relocate, Node.relocateAll_of_sameAll h]
  · exact Program.same_of_relocate

end DrakeSyntax
