import DrakeSyntax.Proofs.Account.ItemList

/-!
# What becomes of the tokens of types, parameters and targets

Productions are given phrases that account for their tokens (`Inner.Accountable`) and account for
their own. Here they do so for types, declarations, parameters of lambdas and targets.

* `accounts_typeName`: a type accounts for its tokens, also one that is applied to no types.
* `accounts_lambdaHead`, `accounts_assignmentHead`: what comes before the body of a lambda or the
  value of an assignment, with the arrow or the operator behind it.
-/

namespace DrakeSyntax

open DrakeSyntax.Parser

/-- The phrases inside account for the tokens they take, and are not remembered. -/
structure Inner.Accountable (g : Inner) : Prop where
  forgetful : g.remembers = false
  expression : Accounts [] g.expression Node.written
  unary : Accounts [] g.unary Node.written
  type : Accounts [] g.type TypeHint.written

variable {g : Inner} {w : List Token}

/-! ### Types -/

theorem significant_typeHint (name : String) (ps : List TypeHint) (position : Position) :
    significant (TypeHint.written ⟨name, ps, position⟩) =
      significant [.identifier name] ++ significant (ps.flatMap TypeHint.written) := by
  cases ps with
  | nil => rw [TypeHint.written, List.flatMap_nil, significant_nil, List.append_nil]
  | cons p ps =>
    simp [TypeHint.written, TypeHint.writtenAll_eq_map, List.flatMap_map, -List.map_cons,
      -List.flatMap_cons]

theorem accounts_typeName (hg : g.Accountable) : Accounts [] (typeName g) TypeHint.written := by
  unfold typeName
  refine Accounts.identifier_bind fun name position => ?_
  refine Accounts.eat_bind (by simp) ?_ ?_
  · refine (accounts_list hg.type).bind fun parameters => ?_
    refine Accounts.discard_bind (Accounts.expect_bind (by simp) fun _ => ?_)
    apply Accounts.pure
    rw [significant_typeHint]
    simp
  · apply Accounts.pure
    rw [significant_typeHint]
    simp

theorem accounts_typeHint (hg : g.Accountable) : Accounts [] (typeHint g) TypeHint.angled := by
  unfold typeHint
  refine Accounts.discard_bind (Accounts.expect_bind (by simp) fun _ => ?_)
  refine (accounts_typeName hg).phrase fun hint => ?_
  refine Accounts.discard_bind (Accounts.expect_bind (by simp) fun _ => ?_)
  apply Accounts.pure
  simp [TypeHint.angled]

/-! ### Declarations and parameters -/

theorem accounts_declaration (hg : g.Accountable) : Accounts [] (declaration g) Node.written := by
  unfold declaration
  refine Accounts.peek_bind fun start => Accounts.at ?_
  -- the rest, with or without the keyword in front
  have hrest (constant : Bool) :
      Accounts (if constant then [.keyword .const] else []) (do
        let hint ← typeHint g
        let found ← identifier
        return (⟨.declaration ⟨constant, hint, found.1⟩, start.position⟩ : Node)) Node.written := by
    refine (accounts_typeHint hg).phrase fun hint => ?_
    refine Accounts.identifier_bind fun name _ => ?_
    apply Accounts.pure
    simp [Node.written, NodeKind.written, Declaration.written]
  exact Accounts.eat_bind (by simp) (hrest true) (hrest false)

theorem accounts_positionalParameter (hg : g.Accountable) :
    Accounts [] (positionalParameter g) PositionalParameter.written := by
  unfold positionalParameter
  have hrest (variadic : Bool) :
      Accounts (if variadic then [.punctuator .star] else []) (do
        let hint ← typeHint g
        let found ← identifier
        return (⟨hint, variadic, found.1⟩ : PositionalParameter)) PositionalParameter.written := by
    refine (accounts_typeHint hg).phrase fun hint => ?_
    refine Accounts.identifier_bind fun name _ => ?_
    apply Accounts.pure
    simp [PositionalParameter.written]
  exact Accounts.eat_bind (by simp) (hrest true) (hrest false)

theorem accounts_keywordParameter (hg : g.Accountable) :
    Accounts [] (keywordParameter g) KeywordParameter.written := by
  unfold keywordParameter
  refine Accounts.eat_bind (by simp) ?_ ?_
  · -- a parameter with stars in front takes nothing behind its name
    refine (accounts_typeHint hg).phrase fun hint => ?_
    refine Accounts.identifier_bind fun name _ => ?_
    apply Accounts.pure
    simp [KeywordParameter.written, KeywordParameterKind.written]
  · refine (accounts_typeHint hg).phrase fun hint => ?_
    refine Accounts.identifier_bind fun name _ => ?_
    refine Accounts.eat_bind (by simp) (hg.expression.phrase fun value => ?_) ?_
    · apply Accounts.pure
      simp [KeywordParameter.written, KeywordParameterKind.written]
    · apply Accounts.pure
      simp [KeywordParameter.written, KeywordParameterKind.written]

/-- The parameters of a lambda and the arrow behind them. -/
def Parser.LambdaHead.written (head : LambdaHead) : List Token :=
  head.positional.flatMap PositionalParameter.written ++
    head.keyword.flatMap KeywordParameter.written ++ [.punctuator .arrow]

theorem accounts_lambdaHead (hg : g.Accountable) :
    Accounts [] (lambdaHead g) LambdaHead.written := by
  unfold lambdaHead
  refine (accounts_twoKindDelimited (accounts_positionalParameter hg)
    (accounts_keywordParameter hg)).bind fun (positional, keyword) => ?_
  refine Accounts.discard_bind (Accounts.expect_bind (by simp) fun _ => ?_)
  apply Accounts.pure
  simp [LambdaHead.written]

theorem accounts_lambdaBody (hg : g.Accountable) (head : LambdaHead) (position : Position) :
    Accounts head.written (lambdaBody g head position) Node.written := by
  unfold lambdaBody
  refine hg.expression.phrase fun body => ?_
  apply Accounts.pure
  simp [LambdaHead.written, Node.written, NodeKind.written, KeywordParameter.writtenAll_eq_map,
    List.flatMap_map]

/-! ### Targets -/

theorem accounts_targetModifier :
    Accounts [] targetModifier fun modifier => modifier.toList.map (·.token) := by
  unfold targetModifier
  refine Accounts.eat_bind (by simp) (Accounts.pure rfl) ?_
  exact Accounts.eat_bind (by simp) (Accounts.pure rfl) (Accounts.pure rfl)

theorem accounts_target (hg : g.Accountable) : Accounts [] (target g) Target.written := by
  unfold target
  refine Accounts.peek_bind fun start => Accounts.at ?_
  refine accounts_targetModifier.phrase fun modifier => ?_
  -- the rest, with or without a type
  have hrest (hint : Option TypeHint) :
      Accounts ([] ++ modifier.toList.map (·.token) ++ hint.toList.flatMap TypeHint.angled) (do
        let found ← identifier
        return (⟨modifier, hint, found.1, start.position⟩ : Target)) Target.written := by
    refine Accounts.identifier_bind fun name _ => ?_
    apply Accounts.pure
    simp [Target.written]
  refine Accounts.isAt_bind (AccountsAt.ite_true (Accounts.at ?_)) ((hrest none).congr (by simp))
  have hhint := (accounts_typeHint hg).behind ([] ++ modifier.toList.map (·.token))
  refine Accounts.bind (Accounts.map (hhint.weaken fun hint => ?_)) hrest
  simp

theorem accounts_targets (hg : g.Accountable) (what : String) :
    Accounts w (targets g what) fun ts => w ++ ts.flatMap Target.written := by
  unfold targets
  refine (accounts_delimited (accounts_target hg)).bind fun ts => ?_
  exact Accounts.ite (Accounts.failExpecting _) (Accounts.pure rfl)

theorem assignmentOperator?_eq_some {t : Token} {operator : AssignmentOperator}
    (h : assignmentOperator? t = some operator) : t = operator.token := by
  unfold assignmentOperator? at h
  split at h
  all_goals cases h
  all_goals rfl

/-- The targets of an assignment and the operator behind them. -/
def Parser.AssignmentHead.written (head : AssignmentHead) : List Token :=
  head.targets.flatMap Target.written ++ [head.operator.token]

theorem AssignmentOperator.token_ne_endOfInput (operator : AssignmentOperator) :
    operator.token ≠ .endOfInput := by
  cases operator <;> exact Token.noConfusion

theorem accounts_assignmentHead (hg : g.Accountable) :
    Accounts [] (assignmentHead g) AssignmentHead.written := by
  unfold assignmentHead
  refine (accounts_targets hg _).bind fun ts => ?_
  refine Accounts.peek_bind fun operatorToken => ?_
  cases hoperator : assignmentOperator? operatorToken.token with
  | none => exact (Accounts.failExpecting _).at
  | some operator =>
    rw [assignmentOperator?_eq_some hoperator]
    refine AccountsAt.discard_advance_bind operator.token_ne_endOfInput ?_
    apply Accounts.pure
    simp [AssignmentHead.written]

theorem accounts_assignmentValue (hg : g.Accountable) (head : AssignmentHead)
    (position : Position) :
    Accounts head.written (assignmentValue g head position) Node.written := by
  unfold assignmentValue
  refine Accounts.ite (Accounts.rejectAt _ _) (Accounts.ite (Accounts.rejectAt _ _) ?_)
  refine hg.expression.phrase fun value => ?_
  apply Accounts.pure
  simp [AssignmentHead.written, Node.written, NodeKind.written, writtenTargets,
    List.flatMap_map]

end DrakeSyntax
