import DrakeSyntax.Proofs.LooseBreaks.Operand

/-!
# Expressions and programs overlook line breaks that may be left out

Keyword forms, expressions and programs made of phrases that overlook the line breaks.

* `overlooks_form`: the keyword that goes on with a form is found, whether a line break stands in
  front of it or not.
* `Inner.overlooks_phrases`: the phrases of any depth overlook the line breaks.
-/

namespace DrakeSyntax

open DrakeSyntax.Parser

variable {xs : List LooseToken} {g : Inner}

/-! ### Keyword forms -/

/-- A branch behind a keyword, in front of which a line break may stand. -/
theorem overlooks_branch (hg : g.Overlooks xs) (k : Keyword) : Overlooks xs (do
    if ← skipNewlineBefore k then
      discard advance
      some <$> g.expression
    else return none) := by
  simp only [Parser.discard_bind]
  exact Overlooks.skipNewlineBefore_bind (fun _ => Overlooks.map hg.expression) Overlooks.pure

theorem overlooks_conditional (hg : g.Overlooks xs) : Overlooks xs (conditional g) := by
  refine (Overlooks.expect rfl).bind fun position => hg.expression.bind fun condition => ?_
  refine Overlooks.skipNewlineBefore_expect ?_
  refine hg.expression.bind fun consequence => ?_
  exact (overlooks_branch hg .else_).bind fun otherwise => Overlooks.pure

theorem overlooks_branches (hg : g.Overlooks xs) : Overlooks xs (branches g) := by
  refine Overlooks.peek_bind (Balks.peek_bind fun t ht => ?_) fun start => ?_
  · rw [if_neg (Balks.ne_of_atSeam ht rfl)]
    exact Balks.failExpecting _
  · refine OverlooksAt.ite (OverlooksOr.at ?_) (Overlooks.failExpecting _).at
    refine (overlooks_brace hg).bind fun node => ?_
    split
    · exact Overlooks.pure
    · exact Overlooks.pure
    · exact Overlooks.rejectAt _ _

theorem overlooks_caseForm (hg : g.Overlooks xs) : Overlooks xs (caseForm g) := by
  refine (Overlooks.expect rfl).bind fun position => ?_
  refine (overlooks_cascade (overlooks_unary hg) _ _).bind fun subject => ?_
  refine (Overlooks.expect rfl).discard_bind ((overlooks_branches hg).bind fun pairs => ?_)
  exact (overlooks_branch hg .else_).bind fun otherwise => Overlooks.pure

theorem overlooks_catchBinding : Overlooks xs catchBinding :=
  Overlooks.eat_bind rfl (Overlooks.identifier.bind fun _ => Overlooks.pure) Overlooks.pure

theorem overlooks_handlers (hg : g.Overlooks xs) (r : Nat) : Overlooks xs (handlers g r) := by
  induction r with
  | zero => exact Overlooks.pure
  | succ r ih =>
    refine Overlooks.skipNewlineBefore_bind (fun t => ?_) Overlooks.pure
    refine Overlooks.identifier.bind fun found => overlooks_catchBinding.bind fun binding => ?_
    exact hg.expression.bind fun handler => Overlooks.bind ih fun hs => Overlooks.pure

theorem overlooks_tryForm (hg : g.Overlooks xs) : Overlooks xs (tryForm g) := by
  refine (Overlooks.expect rfl).bind fun position => hg.expression.bind fun body => ?_
  refine (overlooks_handlers hg _).bind fun hs => ?_
  refine (overlooks_branch hg .finally_).bind fun cleanup => ?_
  exact Overlooks.ite (Overlooks.reject _) Overlooks.pure

theorem overlooks_forLoop (hg : g.Overlooks xs) : Overlooks xs (forLoop g) := by
  refine (Overlooks.expect rfl).bind fun position => (overlooks_targets hg _).bind fun ts => ?_
  refine (Overlooks.expect rfl).discard_bind (hg.expression.bind fun iterable => ?_)
  exact (overlooks_block hg).bind fun body => Overlooks.pure

theorem overlooks_whileLoop (hg : g.Overlooks xs) : Overlooks xs (whileLoop g) := by
  refine (Overlooks.expect rfl).bind fun position => hg.expression.bind fun condition => ?_
  exact (overlooks_block hg).bind fun body => Overlooks.pure

theorem overlooks_iterForm (hg : g.Overlooks xs) : Overlooks xs (iterForm g) := by
  refine (Overlooks.expect rfl).bind fun position => Overlooks.peek_bind ?_ fun t => ?_
  · refine Balks.peek_bind fun t ht => ?_
    rcases Token.atSeam_cases ht with h | h | h | h | h
    all_goals
      simp only [h]
      exact (Balks.failExpecting _).bind
  · dsimp only
    split
    · exact OverlooksOr.at ((overlooks_bracket hg).bind fun operand => Overlooks.pure)
    · exact OverlooksOr.at ((overlooks_forLoop hg).bind fun operand => Overlooks.pure)
    · exact OverlooksOr.at ((overlooks_whileLoop hg).bind fun operand => Overlooks.pure)
    · exact OverlooksOr.at (Overlooks.bind (Overlooks.failExpecting _) fun _ => Overlooks.pure)

theorem overlooks_blockForm (hg : g.Overlooks xs) (k : Keyword)
    (hk : (Token.keyword k).atSeam = false) (kind : List Node → NodeKind) :
    Overlooks xs (blockForm g k kind) :=
  (Overlooks.expect hk).bind fun _ => (overlooks_blockItems hg).bind fun _ => Overlooks.pure

theorem balks_enumMember : Balks enumMember := Balks.identifier.bind

theorem overlooks_enumMember : Overlooks xs enumMember := by
  refine Overlooks.identifier.bind fun found => Overlooks.eat_bind rfl ?_ Overlooks.pure
  refine Overlooks.peek_bind (Balks.peek_bind fun t ht => ?_) fun t => ?_
  · rcases Token.atSeam_cases ht with h | h | h | h | h
    all_goals
      simp only [h]
      exact Balks.failExpecting _
  · split
    · exact OverlooksAt.discard_advance_bind Overlooks.pure
    · exact (Overlooks.failExpecting _).at

theorem overlooks_enumForm : Overlooks xs (enumForm g) := by
  refine (Overlooks.expect rfl).bind fun position => (Overlooks.eat rfl).bind fun flags => ?_
  refine (Overlooks.expect rfl).discard_bind ?_
  exact Overlooks.closed (overlooks_list overlooks_enumMember balks_enumMember) rfl
    fun members => Overlooks.pure

theorem balks_brace : Balks (brace g) := (Balks.expect rfl).bind

theorem overlooks_mutableBrace (hg : g.Overlooks xs) : Overlooks xs (mutableBrace g) := by
  refine Overlooks.peek_bind (Balks.peek_bind fun _ _ => balks_brace.bind) fun start => ?_
  refine OverlooksOr.at ((overlooks_brace hg).bind fun node => ?_)
  split
  · exact Overlooks.pure
  · exact Overlooks.pure
  · exact Overlooks.rejectAt _ _

theorem overlooks_mutableForm (hg : g.Overlooks xs) : Overlooks xs (mutableForm g) := by
  refine (Overlooks.expect rfl).bind fun position => Overlooks.peek_bind ?_ fun t => ?_
  · refine Balks.peek_bind fun t ht => ?_
    rcases Token.atSeam_cases ht with h | h | h | h | h
    all_goals
      simp only [h]
      exact (Balks.failExpecting _).bind
  · dsimp only
    split
    · exact OverlooksOr.at ((overlooks_blockForm hg .object rfl _).bind fun _ => Overlooks.pure)
    · exact OverlooksOr.at ((overlooks_mutableBrace hg).bind fun operand => Overlooks.pure)
    · exact OverlooksOr.at ((overlooks_bracket hg).bind fun operand => Overlooks.pure)
    · exact OverlooksOr.at ((overlooks_tuple hg).bind fun operand => Overlooks.pure)
    · exact OverlooksOr.at ((overlooks_atom hg).bind fun operand => Overlooks.pure)
    · exact OverlooksOr.at (Overlooks.bind (Overlooks.failExpecting _) fun _ => Overlooks.pure)

theorem endsExpression_of_atSeam {t : Token} (h : t.atSeam) : endsExpression t := by
  rcases Token.atSeam_cases h with rfl | rfl | rfl | rfl | rfl <;> rfl

/-- A line break ends the expression around an optional one, and so does the keyword behind it. -/
theorem overlooks_optionalExpression (hg : g.Overlooks xs) :
    Overlooks xs (optionalExpression g) := by
  intro s s' habreast
  unfold optionalExpression
  rw [bind_of_ok (rfl : peek s = .ok s.cursor.current s),
    bind_of_ok (rfl : peek s' = .ok s'.cursor.current s')]
  rcases habreast.cases with hmeets | hseam
  · rw [← hmeets.current]
    have hvalue : Overlooks xs (some <$> g.expression) := Overlooks.map hg.expression
    exact Overlooks.ite Overlooks.pure hvalue s s' habreast
  · rw [if_pos (endsExpression_of_atSeam hseam.atSeam),
      if_pos (endsExpression_of_atSeam hseam.atSeam')]
    exact .ok habreast

theorem overlooks_throwForm (hg : g.Overlooks xs) : Overlooks xs (throwForm g) :=
  (Overlooks.expect rfl).bind fun _ => hg.expression.bind fun _ => Overlooks.pure

theorem overlooks_returnForm (hg : g.Overlooks xs) : Overlooks xs (returnForm g) := by
  refine (Overlooks.expect rfl).bind fun position => ?_
  exact (overlooks_optionalExpression hg).bind fun value => Overlooks.pure

theorem overlooks_yieldForm (hg : g.Overlooks xs) : Overlooks xs (yieldForm g) := by
  refine (Overlooks.expect rfl).bind fun position => Overlooks.eat_bind rfl ?_ ?_
  · exact hg.expression.bind fun source => Overlooks.pure
  · exact (overlooks_optionalExpression hg).bind fun value => Overlooks.pure

theorem overlooks_wordForm (k : Keyword) (hk : (Token.keyword k).atSeam = false)
    (kind : NodeKind) : Overlooks xs (wordForm k kind) :=
  (Overlooks.expect hk).bind fun _ => Overlooks.pure

theorem overlooks_form (hg : g.Overlooks xs) {k : Keyword} {form : Parser Node}
    (hform : form? g k = some form) : Overlooks xs form := by
  cases k
  -- a keyword without a form leaves no case
  all_goals cases hform
  case if_ => exact overlooks_conditional hg
  case case => exact overlooks_caseForm hg
  case try_ => exact overlooks_tryForm hg
  case for_ => exact overlooks_forLoop hg
  case while_ => exact overlooks_whileLoop hg
  case iter => exact overlooks_iterForm hg
  case enum => exact overlooks_enumForm
  case mutable => exact overlooks_mutableForm hg
  case throw => exact overlooks_throwForm hg
  case return_ => exact overlooks_returnForm hg
  case yield => exact overlooks_yieldForm hg
  case do_ | object | module_ | exception => exact overlooks_blockForm hg _ rfl _
  case break_ | continue_ | pass => exact overlooks_wordForm _ rfl _

/-! ### Expressions and programs -/

theorem overlooks_plainExpression (hg : g.Overlooks xs) (start : PlacedToken) :
    Overlooks xs (plainExpression g start) := by
  unfold plainExpression
  split
  · exact overlooks_declaration hg
  · exact overlooks_declaration hg
  · exact (overlooks_assignmentHead hg).bind fun head => overlooks_assignmentValue hg head _
  · exact overlooks_cascade (overlooks_unary hg) _ _

theorem overlooks_openExpression (hg : g.Overlooks xs) (start : PlacedToken) :
    Overlooks xs (openExpression g start) := by
  refine (Overlooks.attemptIf (overlooks_lambdaHead hg)).bind fun lambda => ?_
  cases lambda with
  | some head => exact overlooks_lambdaBody hg head _
  | none =>
    refine (Overlooks.attemptIf (overlooks_assignmentHead hg)).bind fun assignment => ?_
    cases assignment with
    | some head => exact overlooks_assignmentValue hg head _
    | none => exact overlooks_plainExpression hg start

theorem balks_expressionWith : Balks (expressionWith g) := by
  intro t us ht
  rcases Bool.or_eq_true_iff.1 ht with hnewline | hcontinues
  · rw [eq_of_beq hnewline]
    exact fails_expressionWith rfl rfl rfl rfl
  · exact fails_expressionWith_of_continues hcontinues

theorem overlooks_expressionWith (hg : g.Overlooks xs) : Overlooks xs (expressionWith g) := by
  refine Overlooks.peek_bind balks_expressionWith fun start => OverlooksOr.at ?_
  split
  · next form hform =>
    unfold formAt? at hform
    split at hform
    · exact overlooks_form hg hform
    · cases hform
  · exact overlooks_openExpression hg start

theorem overlooks_programWith (hg : g.Overlooks xs) : Overlooks xs (programWith g) := by
  refine Overlooks.close (overlooks_list hg.expression hg.balksExpression) (fun l => ?_) fun l => ?_
  · exact (Balks.isAt_bind rfl (Balks.failExpecting _)).refuses
  · exact Overlooks.isAt_ite rfl (fun t _ => Overlooks.pure.at) (Overlooks.failExpecting _)

theorem Token.endsOperation_of_continues {t : Token} (h : t.continues) : t.EndsOperation := by
  unfold continues at h
  split at h
  · exact ⟨rfl, fun _ => rfl⟩
  · exact ⟨rfl, fun _ => rfl⟩
  · exact ⟨rfl, fun _ => rfl⟩
  · exact ⟨rfl, fun _ => rfl⟩
  · cases h

/-- An operand in front of a keyword that goes on is an expression, also with other brackets
remembered. -/
theorem expressionWith_of_operand (hg : g.SteadyAlone) {s s' r : ParserState} {n : Node}
    (hended : s.cursor.Ended) (h : unary g s = .ok n s')
    (hcontinues : s'.cursor.current.token.continues) (hr : r.cursor = s.cursor) :
    ∃ r', expressionWith g r = .ok n r' ∧ r'.cursor = s'.cursor := by
  have htokens := ended_iff.1 hended
  cases hs : s.tokens with
  | nil =>
    rw [hs] at htokens
    cases htokens
  | cons t us =>
    have hend : .endOfInput ∈ us := by
      rw [hs] at htokens
      rcases List.mem_cons.1 htokens with rfl | hend
      · -- no operand begins at the end of the input
        obtain ⟨e, r', he⟩ := error_of_fails (fails_unary rfl) hs
        rw [he] at h
        cases h
      · exact hend
    obtain ⟨s₁, hs₁, hcursor⟩ :=
      expressionWith_of_unary hg hs hend h (Token.endsOperation_of_continues hcontinues)
    obtain ⟨r', hr', hcursor'⟩ := (matches_expressionWith (hg _ _)).outcome_eq hended hs₁ hr
    exact ⟨r', hr', hcursor'.trans hcursor⟩

namespace Inner

theorem Overlooks.deepen (hg : g.Overlooks xs) (hsteady : g.SteadyAlone) :
    g.deepen.Overlooks xs where
  forgetful := hg.forgetful
  expression := overlooks_expressionWith hg
  unary := overlooks_unary hg
  type := overlooks_typeName hg
  balksExpression := balks_expressionWith
  balksUnary := balks_unary
  balksType := balks_typeName
  operand := expressionWith_of_operand hsteady

theorem overlooks_phrases (depth : Nat) : (phrases depth).Overlooks xs := by
  induction depth with
  | zero =>
    refine ⟨rfl, Overlooks.failExpecting _, Overlooks.failExpecting _, Overlooks.failExpecting _,
      Balks.failExpecting _, Balks.failExpecting _, Balks.failExpecting _, ?_⟩
    intro s s' r n _ h
    cases h
  | succ depth ih => exact ih.deepen (steadyAlone_phrases depth)

end Inner

end DrakeSyntax
