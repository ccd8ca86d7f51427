import DrakeSyntax.Proofs.Account.Operand
import DrakeSyntax.Proofs.Memo

/-!
# What becomes of the tokens of a program

Keyword forms, expressions and programs account for the tokens they take.

* `parseTokens_significant`: **the significant tokens of a program are those of its expressions,
  each written by its production, in the same order.** None is lost, none is doubled and none is
  moved, though most of them are read in several trials.
-/

namespace DrakeSyntax

open DrakeSyntax.Parser

variable {g : Inner} {w : List Token}

/-! ### Keyword forms -/

/-- A branch behind a keyword, in front of which a line break may stand. -/
theorem accounts_branch (hg : g.Accountable) (k : Keyword) :
    Accounts [] (do
      if ← skipNewlineBefore k then
        discard advance
        some <$> g.expression
      else return none) (Node.writtenBehind k) := by
  refine Accounts.skipNewlineBefore_bind (AccountsAt.ite_true ?_) (Accounts.pure rfl)
  refine AccountsAt.discard_advance_bind (by simp) (Accounts.map ?_)
  refine (hg.expression.behind _).weaken fun n => ?_
  simp [Node.writtenBehind]

theorem accounts_conditional (hg : g.Accountable) :
    Accounts [] (conditional g) Node.written := by
  unfold conditional
  refine Accounts.expect_bind (by simp) fun position => ?_
  refine hg.expression.phrase fun condition => ?_
  -- a line break in front of `then` is no loss
  refine Accounts.discard_bind ?_
  have hrest : Accounts ([.keyword .if_] ++ condition.written) (do
      discard (expect (.keyword .then_))
      let consequence ← g.expression
      return (⟨.conditional condition consequence (← elseBranch g), position⟩ : Node))
      Node.written := by
    refine Accounts.discard_bind (Accounts.expect_bind (by simp) fun _ => ?_)
    refine hg.expression.phrase fun consequence => ?_
    refine (accounts_branch hg .else_).phrase fun otherwise => ?_
    apply Accounts.pure
    simp [Node.written, NodeKind.written]
  exact Accounts.skipNewlineBefore_bind hrest.at hrest

theorem accounts_branches (hg : g.Accountable) :
    Accounts [] (branches g) fun pairs => pairs.flatMap Pair.written := by
  unfold branches
  refine Accounts.peek_bind fun start => Accounts.at (Accounts.ite ?_ (Accounts.failExpecting _))
  refine (accounts_brace hg).bind fun ⟨kind, position⟩ => ?_
  split
  · next pairs hkind =>
    cases hkind
    exact Accounts.pure (significant_mapping pairs)
  · next hkind =>
    cases hkind
    exact Accounts.pure (significant_block [])
  · exact Accounts.rejectAt _ _

theorem accounts_caseForm (hg : g.Accountable) : Accounts [] (caseForm g) Node.written := by
  unfold caseForm
  refine Accounts.expect_bind (by simp) fun position => ?_
  refine (accounts_cascade (accounts_unary hg) _).phrase fun subject => ?_
  refine Accounts.discard_bind (Accounts.expect_bind (by simp) fun _ => ?_)
  refine (accounts_branches hg).phrase fun pairs => ?_
  refine (accounts_branch hg .else_).phrase fun otherwise => ?_
  apply Accounts.pure
  simp [Node.written, NodeKind.written, Pair.writtenAll_eq_map, List.flatMap_map]

theorem accounts_catchBinding :
    Accounts [] catchBinding fun binding =>
      binding.toList.flatMap fun name => [.keyword .as_, .identifier name] := by
  unfold catchBinding
  refine Accounts.eat_bind (by simp) ?_ (Accounts.pure rfl)
  refine Accounts.identifier_bind fun name _ => ?_
  exact Accounts.pure rfl

theorem CatchClause.writtenAll_eq_flatMap (cs : List CatchClause) :
    CatchClause.writtenAll cs = cs.flatMap CatchClause.written := by
  induction cs with
  | nil => rfl
  | cons c cs ih => rw [CatchClause.writtenAll, ih, List.flatMap_cons]

theorem accounts_handlers (hg : g.Accountable) {r : Nat} :
    Accounts w (handlers g r) fun hs => w ++ hs.flatMap CatchClause.written := by
  induction r generalizing w with
  | zero =>
    apply Accounts.pure
    simp
  | succ r ih =>
    unfold handlers
    refine Accounts.skipNewlineBefore_bind (AccountsAt.ite_true ?_) (Accounts.pure (by simp))
    refine AccountsAt.advance_bind (by simp) fun start => ?_
    refine Accounts.identifier_bind fun exceptionType _ => ?_
    refine accounts_catchBinding.phrase fun binding => ?_
    refine hg.expression.phrase fun handler => ?_
    refine ih.bind fun hs => ?_
    apply Accounts.pure
    simp [CatchClause.written]

theorem accounts_tryForm (hg : g.Accountable) : Accounts [] (tryForm g) Node.written := by
  unfold tryForm
  refine Accounts.expect_bind (by simp) fun position => ?_
  refine hg.expression.phrase fun body => ?_
  refine (accounts_handlers hg).bind fun hs => ?_
  refine (accounts_branch hg .finally_).phrase fun cleanup => ?_
  refine Accounts.ite (Accounts.reject _) ?_
  apply Accounts.pure
  simp [Node.written, NodeKind.written, CatchClause.writtenAll_eq_flatMap]

theorem accounts_forLoop (hg : g.Accountable) : Accounts [] (forLoop g) Node.written := by
  unfold forLoop
  refine Accounts.expect_bind (by simp) fun position => ?_
  refine (accounts_targets hg _).bind fun ts => ?_
  refine Accounts.discard_bind (Accounts.expect_bind (by simp) fun _ => ?_)
  refine hg.expression.phrase fun iterable => ?_
  refine (accounts_block hg).phrase fun body => ?_
  apply Accounts.pure
  simp [Node.written, NodeKind.written, writtenTargets, List.flatMap_map]

theorem accounts_whileLoop (hg : g.Accountable) : Accounts [] (whileLoop g) Node.written := by
  unfold whileLoop
  refine Accounts.expect_bind (by simp) fun position => ?_
  refine hg.expression.phrase fun condition => ?_
  refine (accounts_block hg).phrase fun body => ?_
  apply Accounts.pure
  simp [Node.written, NodeKind.written]

theorem accounts_iterForm (hg : g.Accountable) : Accounts [] (iterForm g) Node.written := by
  unfold iterForm
  refine Accounts.expect_bind (by simp) fun position => ?_
  have hoperand {p : Parser Node} (hp : Accounts [] p Node.written) :
      Accounts [.keyword .iter] (do return (⟨.iter (← p), position⟩ : Node)) Node.written := by
    refine hp.phrase fun operand => ?_
    apply Accounts.pure
    simp [Node.written, NodeKind.written]
  refine Accounts.peek_bind fun t => Accounts.at ?_
  dsimp only
  split
  · exact hoperand (accounts_bracket hg)
  · exact hoperand (accounts_forLoop hg)
  · exact hoperand (accounts_whileLoop hg)
  · exact hoperand (Accounts.failExpecting _)

theorem accounts_blockForm (hg : g.Accountable) (k : Keyword) {kind : List Node → NodeKind}
    (hkind : ∀ items, significant (kind items).written =
      significant (.keyword k :: items.flatMap Node.written)) :
    Accounts [] (blockForm g k kind) Node.written := by
  unfold blockForm
  refine Accounts.expect_bind (by simp) fun position => ?_
  refine (accounts_blockItems hg).phrase fun items => ?_
  apply Accounts.pure
  rw [Node.written, hkind]
  rfl

theorem accounts_enumMember : Accounts [] enumMember EnumMember.written := by
  unfold enumMember
  refine Accounts.identifier_bind fun name position => ?_
  refine Accounts.eat_bind (by simp) (Accounts.peek_bind fun t => ?_) (Accounts.pure rfl)
  split
  · next literal hnumber =>
    rw [hnumber]
    exact AccountsAt.discard_advance_bind (by simp) (Accounts.pure rfl)
  · exact (Accounts.failExpecting _).at

theorem accounts_enumForm : Accounts [] (enumForm g) Node.written := by
  unfold enumForm
  refine Accounts.expect_bind (by simp) fun position => ?_
  have hrest (flags : Bool) :
      Accounts (.keyword .enum :: if flags then [.keyword .flags] else []) (do
        discard (expect (.punctuator .leftBrace))
        let members ← list g.rounds enumMember
        discard (expect (.punctuator .rightBrace))
        return (⟨.enum flags members.items, position⟩ : Node)) Node.written := by
    refine Accounts.discard_bind (Accounts.expect_bind (by simp) fun _ => ?_)
    refine (accounts_list accounts_enumMember).bind fun members => ?_
    refine Accounts.discard_bind (Accounts.expect_bind (by simp) fun _ => ?_)
    apply Accounts.pure
    simp [Node.written, NodeKind.written, List.flatMap_map]
  exact Accounts.eat_bind (by simp) (hrest true) (hrest false)

theorem accounts_mutableBrace (hg : g.Accountable) :
    Accounts [] (mutableBrace g) Node.written := by
  unfold mutableBrace
  refine Accounts.peek_bind fun start => Accounts.at ?_
  refine (accounts_brace hg).bind fun ⟨kind, position⟩ => ?_
  dsimp only
  split
  · exact Accounts.pure rfl
  · -- braces with nothing in them are written as a mapping or as a block
    exact Accounts.pure rfl
  · exact Accounts.rejectAt _ _

theorem significant_do (items : List Node) (k : Keyword) :
    significant (.keyword k :: inBraces (commaList (Node.writtenAll items))) =
      significant (.keyword k :: items.flatMap Node.written) := by
  simp [Node.writtenAll_eq_map, List.flatMap_map]

theorem accounts_mutableForm (hg : g.Accountable) :
    Accounts [] (mutableForm g) Node.written := by
  unfold mutableForm
  refine Accounts.expect_bind (by simp) fun position => ?_
  have hoperand {p : Parser Node} (hp : Accounts [] p Node.written) :
      Accounts [.keyword .mutable] (do return (⟨.mutable (← p), position⟩ : Node))
        Node.written := by
    refine hp.phrase fun operand => ?_
    apply Accounts.pure
    simp [Node.written, NodeKind.written]
  refine Accounts.peek_bind fun t => Accounts.at ?_
  dsimp only
  split
  · exact hoperand (accounts_blockForm hg .object fun items => significant_do items .object)
  · exact hoperand (accounts_mutableBrace hg)
  · exact hoperand (accounts_bracket hg)
  · exact hoperand (accounts_tuple hg)
  · exact hoperand (accounts_atom hg)
  · exact hoperand (Accounts.failExpecting _)

theorem accounts_optionalExpression (hg : g.Accountable) :
    Accounts [] (optionalExpression g) Node.writtenOption := by
  unfold optionalExpression
  refine Accounts.peek_bind fun t => Accounts.at (Accounts.ite (Accounts.pure rfl) ?_)
  refine Accounts.map (hg.expression.weaken fun n => ?_)
  simp [Node.writtenOption]

theorem accounts_throwForm (hg : g.Accountable) : Accounts [] (throwForm g) Node.written := by
  unfold throwForm
  refine Accounts.expect_bind (by simp) fun position => ?_
  refine hg.expression.phrase fun value => ?_
  apply Accounts.pure
  simp [Node.written, NodeKind.written]

theorem accounts_returnForm (hg : g.Accountable) : Accounts [] (returnForm g) Node.written := by
  unfold returnForm
  refine Accounts.expect_bind (by simp) fun position => ?_
  refine (accounts_optionalExpression hg).phrase fun value => ?_
  exact Accounts.pure rfl

theorem accounts_yieldForm (hg : g.Accountable) : Accounts [] (yieldForm g) Node.written := by
  unfold yieldForm
  refine Accounts.expect_bind (by simp) fun position => ?_
  refine Accounts.eat_bind (by simp) (hg.expression.phrase fun source => ?_) ?_
  · apply Accounts.pure
    simp [Node.written, NodeKind.written]
  · refine (accounts_optionalExpression hg).phrase fun value => ?_
    exact Accounts.pure rfl

theorem accounts_wordForm (k : Keyword) {kind : NodeKind} (hkind : kind.written = [.keyword k]) :
    Accounts [] (wordForm k kind) Node.written := by
  unfold wordForm
  refine Accounts.expect_bind (by simp) fun position => ?_
  apply Accounts.pure
  rw [Node.written, hkind, List.nil_append]

theorem accounts_form (hg : g.Accountable) {k : Keyword} {form : Parser Node}
    (hform : form? g k = some form) : Accounts [] form Node.written := by
  cases k
  -- a keyword without a form leaves no case
  all_goals cases hform
  case if_ => exact accounts_conditional hg
  case case => exact accounts_caseForm hg
  case try_ => exact accounts_tryForm hg
  case for_ => exact accounts_forLoop hg
  case while_ => exact accounts_whileLoop hg
  case iter => exact accounts_iterForm hg
  case enum => exact accounts_enumForm
  case mutable => exact accounts_mutableForm hg
  case throw => exact accounts_throwForm hg
  case return_ => exact accounts_returnForm hg
  case yield => exact accounts_yieldForm hg
  case do_ | object | module_ | exception =>
    exact accounts_blockForm hg _ fun items => significant_do items _
  case break_ | continue_ | pass => exact accounts_wordForm _ rfl

/-! ### Expressions and programs -/

theorem accounts_assignment (hg : g.Accountable) (position : Position) :
    Accounts [] (do assignmentValue g (← assignmentHead g) position) Node.written :=
  (accounts_assignmentHead hg).bind fun head => accounts_assignmentValue hg head position

theorem accounts_plainExpression (hg : g.Accountable) (start : PlacedToken) :
    Accounts [] (plainExpression g start) Node.written := by
  unfold plainExpression
  split
  · exact accounts_declaration hg
  · exact accounts_declaration hg
  · exact accounts_assignment hg start.position
  · exact accounts_cascade (accounts_unary hg) _

theorem accounts_expressionWith (hg : g.Accountable) :
    Accounts [] (expressionWith g) Node.written := by
  unfold expressionWith
  refine Accounts.peek_bind fun start => Accounts.at ?_
  split
  · next form hform =>
    unfold formAt? at hform
    split at hform
    · exact accounts_form hg hform
    · cases hform
  · -- what a trial has read is taken only if the trial succeeds
    refine (accounts_lambdaHead hg).attemptIf_bind (fun head => ?_) ?_
    · exact accounts_lambdaBody hg head start.position
    · refine (accounts_assignmentHead hg).attemptIf_bind (fun head => ?_) ?_
      · exact accounts_assignmentValue hg head start.position
      · exact accounts_plainExpression hg start

/-- A program takes everything in front of the end of the input. -/
theorem programWith_significant (hg : g.Accountable) {s s' : ParserState} {p : Program}
    (h : programWith g s = .ok p s') : s.pending = significant (p.body.flatMap Node.written) := by
  unfold programWith at h
  obtain ⟨l, s₁, hlist, hend⟩ := bind_eq_ok h
  have hitems := accounts_list (w := []) hg.expression s l s₁ hlist
  rw [bind_of_ok (isAt_run _ s₁)] at hend
  by_cases hat : s₁.cursor.current.token = .endOfInput
  · -- nothing is pending at the end
    have hnone : s₁.pending = [] := by
      obtain ⟨⟨index, rest⟩, brackets⟩ := s₁
      cases rest with
      | nil => rfl
      | cons t ts =>
        have hat : t.token = .endOfInput := hat
        simp [ParserState.pending, ParserState.tokens, beforeEnd, hat]
    rw [hnone] at hitems
    rw [beq_iff_eq.2 hat] at hend
    cases hend
    simpa using hitems
  · rw [beq_false_of_ne hat] at hend
    cases hend

namespace Inner

theorem Accountable.deepen (hg : g.Accountable) : g.deepen.Accountable where
  forgetful := hg.forgetful
  expression := accounts_expressionWith hg
  unary := accounts_unary hg
  type := accounts_typeName hg

theorem accountable_none : (Inner.none false).Accountable where
  forgetful := rfl
  expression := Accounts.failExpecting _
  unary := Accounts.failExpecting _
  type := Accounts.failExpecting _

theorem accountable_nest (depth : Nat) : ((Inner.none false).nest depth).Accountable := by
  induction depth with
  | zero => exact accountable_none
  | succ depth ih => exact ih.deepen

end Inner

/-- An end token that is put behind the tokens changes nothing in front of the end. -/
theorem beforeEnd_closeTokens (ts : List PlacedToken) :
    beforeEnd ((closeTokens ts).map (·.token)) = beforeEnd (ts.map (·.token)) := by
  unfold closeTokens
  cases hlast : ts.getLast? with
  | none =>
    rw [List.getLast?_eq_none_iff] at hlast
    subst hlast
    rfl
  | some t =>
    by_cases ht : t.token = .endOfInput
    · simp [ht]
    · simp only [ht, if_false, List.map_append, List.map_cons, List.map_nil, beforeEnd]
      rw [List.takeWhile_append]
      split
      · next hall =>
        rw [(List.takeWhile_prefix _).eq_of_length hall]
        simp
      · rfl

/-- **No token is lost, doubled or moved.** The tokens of a program in front of the end of the
input are those of its expressions, each written by its production, one behind the other, but for
line breaks, commas and brackets. -/
theorem parseTokens_significant {ts : List PlacedToken} {p : Program}
    (h : parseTokens ts = .ok p) :
    significant (beforeEnd (ts.map (·.token))) = significant (p.body.flatMap Node.written) := by
  have halike := alike_program (w := .ofTokens ts) rfl (ParserState.Alike.ofTokens ts).on
    (faithful_empty _) ∅
  change Alike _ _ (Parser.program (.ofTokens ts)) (Reader.forgetful.program (.ofTokens ts))
    at halike
  unfold parseTokens at h
  cases hprogram : Parser.program (.ofTokens ts) with
  | error e s =>
    rw [hprogram] at h
    cases h
  | ok p' s =>
    rw [hprogram] at h halike
    cases h
    -- a parser that remembers nothing reads the same program
    generalize hforgetful : Reader.forgetful.program (.ofTokens ts) = result at halike
    cases halike with
    | ok a on room table =>
      have htokens := programWith_significant (Inner.accountable_nest _) hforgetful
      rw [← htokens, ← beforeEnd_closeTokens]
      rfl

/-- Of `x[` line break `y,]` the two names are kept. -/
theorem parseTokens_significant_index :
    parseTokens (([.identifier "x", .punctuator .leftBracket, .newline, .identifier "y",
        .punctuator .comma, .punctuator .rightBracket] : List Token).map fun t => ⟨t, .start⟩) =
      .ok ⟨[⟨.primary ⟨.identifier "x", .start⟩
        [.index ⟨.list (.items [⟨.identifier "y", .start⟩]), .start⟩], .start⟩]⟩ ∧
    ([.identifier "x", .identifier "y"] : List Token) =
      significant (Node.written ⟨.primary ⟨.identifier "x", .start⟩
        [.index ⟨.list (.items [⟨.identifier "y", .start⟩]), .start⟩], .start⟩ ++ []) := by
  have h : parseTokens (([.identifier "x", .punctuator .leftBracket, .newline, .identifier "y",
        .punctuator .comma, .punctuator .rightBracket] : List Token).map fun t => ⟨t, .start⟩) =
      .ok ⟨[⟨.primary ⟨.identifier "x", .start⟩
        [.index ⟨.list (.items [⟨.identifier "y", .start⟩]), .start⟩], .start⟩]⟩ := by
    rfl
  exact ⟨h, parseTokens_significant h⟩

end DrakeSyntax
