import DrakeSyntax.Proofs.WellFormed.Operand

/-!
# Parsers build well-formed trees

Every tree that comes out of a parser is well-formed, whatever tokens it is made from. The forms
that begin with a keyword, lambdas, assignments and operands each keep well-formedness, so the
phrases of any depth have it, and so do all answers that a parser gives.

* `Inner.wellFormed_nest`: phrases of any depth are well-formed.
* `run_wellFormed`: **all nodes and programs that a session answers with are well-formed.**
-/

namespace DrakeSyntax

open DrakeSyntax.Parser

variable {g : Inner}

/-! ### Forms that begin with a keyword -/

/-- The node, if there is one, is well-formed. -/
def OptionWellFormed (n : Option Node) : Prop := ∀ c ∈ n.toList, c.WellFormed

theorem yields_someExpression (hg : g.WellFormed) :
    Yields (some <$> g.expression) OptionWellFormed :=
  hg.expression.map fun n hn => by simpa [OptionWellFormed] using hn

theorem yields_noExpression : Yields (pure none : Parser (Option Node)) OptionWellFormed :=
  .pure (by simp [OptionWellFormed])

theorem yields_elseBranch (hg : g.WellFormed) : Yields (elseBranch g) OptionWellFormed :=
  .skip fun _ =>
    .ite (fun _ => .skip fun _ => yields_someExpression hg) fun _ => yields_noExpression

theorem yields_finallyBranch (hg : g.WellFormed) : Yields (finallyBranch g) OptionWellFormed :=
  .skip fun _ =>
    .ite (fun _ => .skip fun _ => yields_someExpression hg) fun _ => yields_noExpression

theorem yields_optionalExpression (hg : g.WellFormed) :
    Yields (optionalExpression g) OptionWellFormed :=
  .skip fun _ => .ite (fun _ => yields_noExpression) fun _ => yields_someExpression hg

theorem yields_conditional (hg : g.WellFormed) : Yields (conditional g) Node.WellFormed := by
  refine .skip fun position => ?_
  refine hg.expression.bind fun condition hcondition => ?_
  refine .skip fun _ => .skip fun _ => ?_
  refine hg.expression.bind fun consequence hconsequence => ?_
  refine (yields_elseBranch hg).bind fun otherwise hotherwise => .pure (.node trivial ?_)
  simp only [NodeKind.children, List.forall_mem_cons]
  exact ⟨hcondition, hconsequence, hotherwise⟩

theorem yields_branches (hg : g.WellFormed) :
    Yields (branches g) fun pairs => ∀ p ∈ pairs, p.WellFormed := by
  refine .skip fun start => .ite (fun _ => ?_) fun _ => yields_failExpecting _
  refine (yields_brace hg).bind fun ⟨kind, position⟩ h => ?_
  dsimp only
  split
  · exact .pure h.2
  · exact .pure (by simp)
  · exact yields_rejectAt _ _

theorem yields_caseForm (hg : g.WellFormed) : Yields (caseForm g) Node.WellFormed := by
  refine .skip fun position => (yields_cascade (yields_unary hg)
    OperatorLevel.belowMembership_sound).bind fun subject hsubject => .skip fun _ => ?_
  refine (yields_branches hg).bind fun pairs hpairs => ?_
  refine (yields_elseBranch hg).bind fun otherwise hotherwise => .pure (.node trivial ?_)
  simp only [NodeKind.children, List.forall_mem_cons, List.forall_mem_append]
  exact ⟨hsubject, forall_pair_nodes.2 hpairs, hotherwise⟩

/-- The handler of the clause is well-formed. -/
def CatchClause.WellFormed (c : CatchClause) : Prop := c.handler.WellFormed

theorem yields_handlers (hg : g.WellFormed) {r : Nat} :
    Yields (handlers g r) fun clauses => ∀ c ∈ clauses, c.WellFormed := by
  induction r with
  | zero => exact .pure (by simp)
  | succ r ih =>
    refine .skip fun _ => .ite (fun _ => ?_) fun _ => .pure (by simp)
    refine .skip fun _ => .skip fun (_, _) => .skip fun _ => ?_
    refine hg.expression.bind fun handler h => ?_
    exact ih.bind fun clauses hclauses => .pure (List.forall_mem_cons.2 ⟨h, hclauses⟩)

theorem yields_tryForm (hg : g.WellFormed) : Yields (tryForm g) Node.WellFormed := by
  refine .skip fun position => ?_
  refine hg.expression.bind fun body hbody => ?_
  refine (yields_handlers hg).bind fun clauses hclauses => ?_
  refine (yields_finallyBranch hg).bind fun cleanup hcleanup => ?_
  refine .ite (fun _ => yields_reject _) fun h => .pure (.node ?_ ?_)
  -- the check rejects a `try` with neither handlers nor cleanup
  · simp only [Bool.and_eq_true, List.isEmpty_iff, Option.isNone_iff_eq_none, not_and] at h
    by_cases hempty : clauses = []
    · exact .inr (Option.isSome_iff_ne_none.2 (h hempty))
    · exact .inl hempty
  · simp only [NodeKind.children, List.forall_mem_cons, List.forall_mem_append, List.forall_mem_map]
    exact ⟨hbody, hclauses, hcleanup⟩

theorem yields_forLoop (hg : g.WellFormed) :
    Yields (forLoop g) fun n => n.WellFormed ∧ n.kind.isIterable := by
  refine .skip fun position => ?_
  refine (yields_targets _).bind fun ts hts => ?_
  refine .skip fun _ => ?_
  refine hg.expression.bind fun iterable hiterable => ?_
  refine (yields_block hg).bind fun body hbody => ?_
  refine .pure ⟨.node ⟨hts, hbody.2⟩ ?_, rfl⟩
  simp only [NodeKind.children, List.forall_mem_cons]
  exact ⟨hiterable, hbody.1, by simp⟩

theorem yields_whileLoop (hg : g.WellFormed) :
    Yields (whileLoop g) fun n => n.WellFormed ∧ n.kind.isIterable := by
  refine .skip fun position => ?_
  refine hg.expression.bind fun condition hcondition => ?_
  refine (yields_block hg).bind fun body hbody => .pure ⟨.node hbody.2 ?_, rfl⟩
  simp only [NodeKind.children, List.forall_mem_cons]
  exact ⟨hcondition, hbody.1, by simp⟩

theorem Node.IsList.iterable {n : Node} (h : n.IsList) : n.kind.isIterable := by
  obtain ⟨-, h⟩ := h
  cases hkind : n.kind with
  | list => rfl
  | _ => simp [hkind, NodeKind.isList] at h

theorem Node.IsList.mutable {n : Node} (h : n.IsList) : n.kind.isMutable := by
  obtain ⟨-, h⟩ := h
  cases hkind : n.kind with
  | list => rfl
  | _ => simp [hkind, NodeKind.isList] at h

theorem yields_iterForm (hg : g.WellFormed) : Yields (iterForm g) Node.WellFormed := by
  have hbuilt {position : Position} {operand : Node}
      (h : operand.WellFormed ∧ operand.kind.isIterable) :
      Node.WellFormed ⟨.iter operand, position⟩ :=
    .node h.2 (by simpa [NodeKind.children] using h.1)
  refine .skip fun position => .skip fun t => ?_
  dsimp only
  split
  · exact (yields_bracket hg).bind fun _ h => .pure (hbuilt ⟨h.1, h.iterable⟩)
  · exact (yields_forLoop hg).bind fun _ h => .pure (hbuilt h)
  · exact (yields_whileLoop hg).bind fun _ h => .pure (hbuilt h)
  · exact (yields_failExpecting (Q := fun _ => False) _).bind fun _ h => h.elim

theorem yields_blockForm (hg : g.WellFormed) (k : Keyword) (kind : List Node → NodeKind)
    (hkind : ∀ items, (kind items).children = items ∧ (kind items).WellShaped) :
    Yields (blockForm g k kind) fun n => n.WellFormed ∧ ∃ items, n.kind = kind items := by
  refine .skip fun position => ?_
  refine (yields_blockItems hg).bind fun items hitems => ?_
  refine .pure ⟨?_, items, rfl⟩
  refine .node (hkind items).2 ?_
  rw [(hkind items).1]
  exact hitems

theorem yields_enumForm : Yields (enumForm g) Node.WellFormed :=
  .skip fun _ => .skip fun _ => .skip fun _ => .skip fun _ => .skip fun _ =>
    .pure (.node trivial (by simp [NodeKind.children]))

/-- What can stand behind `mutable`. -/
def Node.MutableOperand (n : Node) : Prop :=
  n.kind.isMutable ∧ ∀ position, Node.WellFormed ⟨.mutable n, position⟩

theorem Node.WellFormed.mutableOperand {n : Node} (h : n.WellFormed) (hkind : n.kind.isMutable) :
    n.MutableOperand :=
  ⟨hkind, fun _ => .node hkind (by simpa [NodeKind.children] using h)⟩

theorem yields_mutableBrace (hg : g.WellFormed) : Yields (mutableBrace g) Node.MutableOperand := by
  refine .skip fun start => ?_
  refine (yields_brace hg).bind fun ⟨kind, position⟩ h => ?_
  dsimp only
  split
  · exact .pure ((h.wellFormed position).mutableOperand rfl)
  · exact .pure ⟨rfl, fun _ => .emptyTable _ _⟩
  · exact yields_rejectAt _ _

theorem yields_mutableForm (hg : g.WellFormed) : Yields (mutableForm g) Node.WellFormed := by
  have hbuilt {position : Position} {operand : Node} (h : operand.MutableOperand) :
      Yields (pure ⟨.mutable operand, position⟩) Node.WellFormed := .pure (h.2 position)
  refine .skip fun position => ?_
  refine .peek_bind fun t => ?_
  dsimp only
  split
  · have hobject := yields_blockForm hg .object .object fun items => ⟨rfl, trivial⟩
    refine Yields.at (hobject.bind ?_)
    rintro n ⟨h, items, hkind⟩
    exact hbuilt (h.mutableOperand (by rw [hkind]; rfl))
  · exact Yields.at ((yields_mutableBrace hg).bind fun _ h => hbuilt h)
  · exact Yields.at ((yields_bracket hg).bind fun _ h => hbuilt (h.1.mutableOperand h.mutable))
  · exact Yields.at ((yields_tuple hg).bind fun _ h => hbuilt (h.1.mutableOperand h.2))
  · next value ht =>
    intro s n s' hs hrun
    obtain ⟨operand, s₁, hatom, hrest⟩ := bind_eq_ok hrun
    have h := yields_atom_string ht s operand s₁ hs hatom
    exact hbuilt (h.1.mutableOperand h.2) s₁ n s' hrest
  · exact Yields.at ((yields_failExpecting (Q := fun _ => False) _).bind fun _ h => h.elim)

theorem yields_throwForm (hg : g.WellFormed) : Yields (throwForm g) Node.WellFormed := by
  refine .skip fun _ => ?_
  exact hg.expression.bind fun _ h => .pure (.node trivial (by simpa [NodeKind.children] using h))

theorem yields_returnForm (hg : g.WellFormed) : Yields (returnForm g) Node.WellFormed := by
  refine .skip fun _ => ?_
  exact (yields_optionalExpression hg).bind fun _ h => .pure (.node trivial h)

theorem yields_yieldForm (hg : g.WellFormed) : Yields (yieldForm g) Node.WellFormed := by
  refine .skip fun position => .skip fun isFrom => .ite (fun _ => ?_) fun _ => ?_
  · exact hg.expression.bind fun _ h => .pure (.node trivial (by simpa [NodeKind.children] using h))
  · exact (yields_optionalExpression hg).bind fun _ h => .pure (.node trivial h)

theorem yields_wordForm (k : Keyword) {kind : NodeKind} (hshape : kind.WellShaped)
    (hchildren : kind.children = []) : Yields (wordForm k kind) Node.WellFormed :=
  .skip fun _ => .pure (.node hshape (by simp [hchildren]))

theorem yields_form (hg : g.WellFormed) {k : Keyword} {form : Parser Node}
    (hform : form? g k = some form) : Yields form Node.WellFormed := by
  have hblock (k : Keyword) {kind : List Node → NodeKind}
      (hkind : ∀ items, (kind items).children = items ∧ (kind items).WellShaped) :
      Yields (blockForm g k kind) Node.WellFormed :=
    (yields_blockForm hg k _ hkind).weaken fun _ h => h.1
  cases k
  -- a keyword without a form leaves no case
  all_goals cases hform
  case if_ => exact yields_conditional hg
  case case => exact yields_caseForm hg
  case try_ => exact yields_tryForm hg
  case for_ => exact (yields_forLoop hg).weaken fun _ h => h.1
  case while_ => exact (yields_whileLoop hg).weaken fun _ h => h.1
  case iter => exact yields_iterForm hg
  case enum => exact yields_enumForm
  case mutable => exact yields_mutableForm hg
  case throw => exact yields_throwForm hg
  case return_ => exact yields_returnForm hg
  case yield => exact yields_yieldForm hg
  case do_ | object | module_ | exception => exact hblock _ fun items => ⟨rfl, trivial⟩
  case break_ | continue_ | pass => exact yields_wordForm _ trivial rfl

/-! ### Expressions and programs -/

theorem yields_assignment (hg : g.WellFormed) (position : Position) :
    Yields (do assignmentValue g (← assignmentHead g) position) Node.WellFormed :=
  yields_assignmentHead.bind fun _ hhead => yields_assignmentValue hg hhead position

theorem yields_plainExpression (hg : g.WellFormed) (start : PlacedToken) :
    Yields (plainExpression g start) Node.WellFormed := by
  unfold plainExpression
  split
  · exact yields_declaration
  · exact yields_declaration
  · exact yields_assignment hg start.position
  · exact yields_cascade (yields_unary hg) OperatorLevel.all_sound

theorem yields_expressionWith (hg : g.WellFormed) : Yields (expressionWith g) Node.WellFormed := by
  refine .skip fun start => ?_
  split
  · next form hform =>
    unfold formAt? at hform
    split at hform
    · exact yields_form hg hform
    · cases hform
  · refine (yields_lambdaHead hg).attemptIf_bind (fun head hhead => ?_) ?_
    · exact yields_lambdaBody hg hhead start.position
    · refine yields_assignmentHead.attemptIf_bind (fun head hhead => ?_) ?_
      · exact yields_assignmentValue hg hhead start.position
      · exact yields_plainExpression hg start

theorem yields_programWith (hg : g.WellFormed) : Yields (programWith g) Program.WellFormed := by
  refine (yields_list hg.expression).bind fun _ hl => ?_
  exact .skip fun _ => .ite (fun _ => .pure hl) fun _ => yields_failExpecting _

namespace Inner

theorem WellFormed.deepen (hg : g.WellFormed) : g.deepen.WellFormed where
  forgetful := hg.forgetful
  expression := yields_expressionWith hg
  unary := yields_unary hg
  type := keepsTable_typeName hg.type

theorem wellFormed_none : (Inner.none false).WellFormed where
  forgetful := rfl
  expression := yields_failExpecting _
  unary := yields_failExpecting _
  type := fun _ => rfl

theorem wellFormed_nest (depth : Nat) : ((Inner.none false).nest depth).WellFormed := by
  induction depth with
  | zero => exact wellFormed_none
  | succ depth ih => exact ih.deepen

end Inner

/-! ### Sessions -/

/-- The tree in the answer, if there is one, is well-formed. -/
def Answer.WellFormed : Answer → Prop
  | .node n => n.WellFormed
  | .program p => p.WellFormed
  | .failure _ | .done => True

theorem Yields.answer {α : Type} {p : Parser α} {Q : α → Prop} (hp : Yields p Q)
    (wrap : α → Answer) (hwrap : ∀ a, Q a → (wrap a).WellFormed) (s : ParserState) :
    (Answer.ofResult wrap (p s)).1.WellFormed := by
  cases hrun : p s with
  | ok a s' => exact hwrap a (hp s a s' hrun)
  | error e s' => trivial

/-- A parser that remembers nothing gives well-formed answers from any state. -/
theorem Session.step_forgetful_wellFormed (s : Session) (next : Step) :
    (s.step .forgetful next).1.WellFormed := by
  have hinner := Inner.wellFormed_nest (s.current.cursor.rest.length + 1)
  cases next with
  | expression => exact hinner.expression.answer .node (fun _ h => h) s.current
  | program => exact (yields_programWith hinner).answer .program (fun _ h => h) s.current
  | clone => trivial
  | restore k => trivial

/-- **Every tree that a parser builds is well-formed.** Whatever tokens a parser is made from and
whatever is done with it and clones of it, also after errors, all nodes and programs it answers
with are well-formed. -/
theorem run_wellFormed (ts : List PlacedToken) (steps : List Step) :
    ∀ a ∈ (Session.ofTokens ts).run .remembering steps, a.1.WellFormed := by
  -- the answers are those of a parser that remembers nothing
  have hrun : ∀ {s s' : Session}, s.Alike (.ofTokens ts) s' →
      ∀ a ∈ s.run .remembering steps, a.1.WellFormed := by
    induction steps with
    | nil => simp [Session.run]
    | cons next steps ih =>
      intro s s' h
      obtain ⟨hanswer, halike⟩ := h.step rfl next
      refine List.forall_mem_cons.2 ⟨?_, ih halike⟩
      rw [hanswer]
      exact s'.step_forgetful_wellFormed next
  exact hrun (Session.Alike.ofTokens ts)

/-- `x[y]` is read as a primary whose index holds a list. -/
theorem run_wellFormed_index :
    (Session.ofTokens (([.identifier "x", .punctuator .leftBracket, .identifier "y",
        .punctuator .rightBracket, .endOfInput] : List Token).map fun t => ⟨t, .start⟩)).run
        .remembering [.expression] =
      [(.node ⟨.primary ⟨.identifier "x", .start⟩
        [.index ⟨.list (.items [⟨.identifier "y", .start⟩]), .start⟩], .start⟩,
        ⟨4, [⟨.endOfInput, .start⟩]⟩)] ∧
    Node.WellFormed ⟨.primary ⟨.identifier "x", .start⟩
      [.index ⟨.list (.items [⟨.identifier "y", .start⟩]), .start⟩], .start⟩ := by
  have hsingle {ts : List PlacedToken} {a : Answer × Cursor}
      (h : (Session.ofTokens ts).run .remembering [.expression] = [a]) :
      (Session.ofTokens ts).run .remembering [.expression] = [a] ∧ a.1.WellFormed := by
    refine ⟨h, run_wellFormed ts [.expression] a ?_⟩
    rw [h]
    exact List.mem_singleton_self a
  exact hsingle rfl

end DrakeSyntax
