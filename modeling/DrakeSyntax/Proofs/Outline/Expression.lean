import DrakeSyntax.Proofs.Outline.Phrase
import DrakeSyntax.Proofs.Placement

/-!
# Positions follow the source

Keyword forms, expressions and programs outline what they read.

* `parse_positions`: **all positions in a program are those of tokens, in the order of the source;**
  the nodes directly inside a node begin at different tokens, one behind the other.
-/

namespace DrakeSyntax

open DrakeSyntax.Parser

variable {g : Inner} {w : List Mark}

/-! ### Keyword forms -/

/-- A branch behind a keyword, in front of which a line break may stand. -/
theorem outlines_branch (hg : g.Outlined) (k : Keyword) :
    Outlines w (do
      if ← skipNewlineBefore k then
        discard advance
        some <$> g.expression
      else return none) fun n => w ++ n.toList.map .node := by
  refine Outlines.skipNewlineBefore_bind (fun t ht => ?_) (Outlines.done (by simp))
  have hne : t.token ≠ .endOfInput := by simp [ht]
  exact OutlinesAt.discard_advance_bind hne ((outlines_some hg.expression w).drop _)

theorem outlines_conditional (hg : g.Outlined) : Outlines [] (conditional g) Node.mark := by
  unfold conditional
  refine Outlines.expect_bind (by simp) fun position => hg.expression.phrase fun condition => ?_
  rw [discard_bind]
  have hrest : Outlines (.place position :: condition.mark) (do
      discard (expect (.keyword .then_))
      let consequence ← g.expression
      return (⟨.conditional condition consequence (← elseBranch g), position⟩ : Node))
      Node.mark := by
    refine Outlines.skip_bind (by simp) (hg.expression.phrase fun consequence => ?_)
    exact (outlines_branch hg .else_).bind fun otherwise => Outlines.node rfl
  exact Outlines.skipNewlineBefore_bind (fun t _ => hrest t) hrest

theorem outlines_branches (hg : g.Outlined) :
    Outlines [] (branches g) fun pairs => pairs.flatMap Pair.marks := by
  unfold branches
  refine Outlines.peek_bind fun start =>
    OutlinesAt.ite ((outlines_brace hg).bind (fun ⟨kind, position⟩ => ?_) start)
      (Outlines.failExpecting _ start)
  split
  · next pairs hkind =>
    cases hkind
    refine Outlines.pure fun us hus => ?_
    rw [flatMap_marks_pairs]
    exact hus.contents
  · exact Outlines.pure fun us _ => .nil
  · exact Outlines.rejectAt _ _

theorem outlines_caseForm (hg : g.Outlined) : Outlines [] (caseForm g) Node.mark := by
  unfold caseForm
  refine Outlines.expect_bind (by simp) fun position => ?_
  refine (outlines_cascade (outlines_unary hg) _).phrase fun subject => ?_
  refine Outlines.skip_bind (by simp) ((outlines_branches hg).phrase fun pairs => ?_)
  refine (outlines_branch hg .else_).bind fun otherwise => Outlines.node ?_
  simp [flatMap_marks_pairs, NodeKind.marks, NodeKind.children]

theorem outlines_catchBinding : Outlines w catchBinding fun _ => w := by
  unfold catchBinding
  exact Outlines.eat_bind (by simp) (Outlines.name_bind fun name _ => Outlines.done rfl)
    (Outlines.done rfl)

theorem outlines_handlers (hg : g.Outlined) {r : Nat} :
    Outlines w (handlers g r) fun hs => w ++ hs.flatMap CatchClause.marks := by
  induction r generalizing w with
  | zero =>
    apply Outlines.done
    simp
  | succ r ih =>
    unfold handlers
    refine Outlines.skipNewlineBefore_bind (fun t ht => OutlinesAt.ite_true ?_)
      (Outlines.done (by simp))
    have hne : t.token ≠ .endOfInput := by simp [ht]
    refine OutlinesAt.advance_bind hne (Outlines.name_bind fun exceptionType _ => ?_)
    refine outlines_catchBinding.bind fun binding => hg.expression.phrase fun handler => ?_
    refine ih.bind fun hs => Outlines.done ?_
    simp [CatchClause.marks]

theorem outlines_tryForm (hg : g.Outlined) : Outlines [] (tryForm g) Node.mark := by
  unfold tryForm
  refine Outlines.expect_bind (by simp) fun position => hg.expression.phrase fun body => ?_
  refine (outlines_handlers hg).bind fun hs => ?_
  refine (outlines_branch hg .finally_).bind fun cleanup => ?_
  refine Outlines.ite (Outlines.reject _) (Outlines.node ?_)
  simp [NodeKind.marks]

theorem outlines_forLoop (hg : g.Outlined) : Outlines [] (forLoop g) Node.mark := by
  unfold forLoop
  refine Outlines.expect_bind (by simp) fun position => ?_
  refine (outlines_targets hg _).bind fun ts => Outlines.skip_bind (by simp) ?_
  refine hg.expression.phrase fun iterable => (outlines_block hg).phrase fun body => ?_
  apply Outlines.node
  simp [NodeKind.marks]

theorem outlines_whileLoop (hg : g.Outlined) : Outlines [] (whileLoop g) Node.mark := by
  unfold whileLoop
  refine Outlines.expect_bind (by simp) fun position => hg.expression.phrase fun condition => ?_
  exact (outlines_block hg).phrase fun body => Outlines.node rfl

theorem outlines_iterForm (hg : g.Outlined) : Outlines [] (iterForm g) Node.mark := by
  unfold iterForm
  refine Outlines.expect_bind (by simp) fun position => ?_
  have hoperand {p : Parser Node} (hp : Outlines [] p Node.mark) :
      Outlines [.place position] (do return (⟨.iter (← p), position⟩ : Node)) Node.mark :=
    hp.phrase fun operand => Outlines.node rfl
  refine Outlines.peek_bind fun t => ?_
  dsimp only
  split
  · exact hoperand (outlines_bracket hg) t
  · exact hoperand (outlines_forLoop hg) t
  · exact hoperand (outlines_whileLoop hg) t
  · exact hoperand (Outlines.failExpecting _) t

theorem outlines_blockForm (hg : g.Outlined) (k : Keyword) {kind : List Node → NodeKind}
    (hkind : ∀ items, (kind items).marks = items.map .node) :
    Outlines [] (blockForm g k kind) Node.mark := by
  unfold blockForm
  refine Outlines.expect_bind (by simp) fun position t => ?_
  refine (outlinesAt_blockItems hg).bind fun items => Outlines.pure fun us hus => Along.node ?_
  rw [hkind]
  have hplaces : Along us ([.place position] ++ .place t.position :: items.map .node) := hus
  exact hplaces.drop

theorem outlines_enumMember : Outlines [] enumMember EnumMember.marks := by
  unfold enumMember
  refine Outlines.identifier_bind fun name position => Outlines.eat_bind (by simp) ?_ ?_
  · refine Outlines.peek_bind fun t => ?_
    split
    · next literal hnumber =>
      have hne : t.token ≠ .endOfInput := by simp [hnumber]
      refine OutlinesAt.discard_advance_bind hne (Outlines.drop ?_ _)
      exact Outlines.done rfl
    · exact Outlines.failExpecting _ t
  · exact Outlines.done rfl

theorem outlines_enumForm : Outlines [] (enumForm g) Node.mark := by
  unfold enumForm
  refine Outlines.expect_bind (by simp) fun position => ?_
  have hrest (flags : Bool) : Outlines [.place position] (do
      discard (expect (.punctuator .leftBrace))
      let members ← list g.rounds enumMember
      discard (expect (.punctuator .rightBrace))
      return (⟨.enum flags members.items, position⟩ : Node)) Node.mark := by
    refine Outlines.skip_bind (by simp) ((outlines_list outlines_enumMember).bind fun members => ?_)
    exact Outlines.skip_bind (by simp) (Outlines.node rfl)
  exact Outlines.eat_bind (by simp) (hrest true) (hrest false)

theorem outlines_mutableBrace (hg : g.Outlined) : Outlines [] (mutableBrace g) Node.mark := by
  unfold mutableBrace
  refine Outlines.peek_bind fun start => (outlines_brace hg).bind (fun ⟨kind, position⟩ => ?_) start
  dsimp only
  split
  · exact Outlines.done rfl
  · -- a block with nothing in it has the outline of a mapping with nothing in it
    refine Outlines.pure fun us hus => ⟨hus.traces, hus.apart, ?_⟩
    intro n hn
    obtain rfl := List.mem_singleton.1 hn
    exact .node (List.nil_sublist _) nofun
  · exact Outlines.rejectAt _ _

theorem outlines_mutableForm (hg : g.Outlined) : Outlines [] (mutableForm g) Node.mark := by
  unfold mutableForm
  refine Outlines.expect_bind (by simp) fun position => ?_
  have hoperand {p : Parser Node} (hp : Outlines [] p Node.mark) :
      Outlines [.place position] (do return (⟨.mutable (← p), position⟩ : Node)) Node.mark :=
    hp.phrase fun operand => Outlines.node rfl
  refine Outlines.peek_bind fun t => ?_
  dsimp only
  split
  · exact hoperand (outlines_blockForm hg .object fun items => rfl) t
  · exact hoperand (outlines_mutableBrace hg) t
  · exact hoperand (outlines_bracket hg) t
  · exact hoperand (outlines_tuple hg) t
  · exact hoperand (outlines_atom hg) t
  · exact hoperand (Outlines.failExpecting _) t

theorem outlines_optionalExpression (hg : g.Outlined) :
    Outlines w (optionalExpression g) fun n => w ++ n.toList.map .node := by
  unfold optionalExpression
  refine Outlines.peek_bind fun t => OutlinesAt.ite (Outlines.done (by simp) t) ?_
  exact outlines_some hg.expression w t

theorem outlines_throwForm (hg : g.Outlined) : Outlines [] (throwForm g) Node.mark := by
  unfold throwForm
  refine Outlines.expect_bind (by simp) fun position => ?_
  exact hg.expression.phrase fun value => Outlines.node rfl

theorem outlines_returnForm (hg : g.Outlined) : Outlines [] (returnForm g) Node.mark := by
  unfold returnForm
  refine Outlines.expect_bind (by simp) fun position => ?_
  exact (outlines_optionalExpression hg).bind fun value => Outlines.node rfl

theorem outlines_yieldForm (hg : g.Outlined) : Outlines [] (yieldForm g) Node.mark := by
  unfold yieldForm
  refine Outlines.expect_bind (by simp) fun position => Outlines.eat_bind (by simp) ?_ ?_
  · exact hg.expression.phrase fun source => Outlines.node rfl
  · exact (outlines_optionalExpression hg).bind fun value => Outlines.node rfl

theorem outlines_wordForm (k : Keyword) {kind : NodeKind} (hkind : kind.marks = []) :
    Outlines [] (wordForm k kind) Node.mark := by
  unfold wordForm
  refine Outlines.expect_bind (by simp) fun position => Outlines.node ?_
  rw [hkind]
  rfl

theorem outlines_form (hg : g.Outlined) {k : Keyword} {form : Parser Node}
    (hform : form? g k = some form) : Outlines [] form Node.mark := by
  cases k
  -- a keyword without a form leaves no case
  all_goals cases hform
  case if_ => exact outlines_conditional hg
  case case => exact outlines_caseForm hg
  case try_ => exact outlines_tryForm hg
  case for_ => exact outlines_forLoop hg
  case while_ => exact outlines_whileLoop hg
  case iter => exact outlines_iterForm hg
  case enum => exact outlines_enumForm
  case mutable => exact outlines_mutableForm hg
  case throw => exact outlines_throwForm hg
  case return_ => exact outlines_returnForm hg
  case yield => exact outlines_yieldForm hg
  case do_ | object | module_ | exception => exact outlines_blockForm hg _ fun items => rfl
  case break_ | continue_ | pass => exact outlines_wordForm _ rfl

/-! ### Expressions and programs -/

theorem outlinesAt_plainExpression (hg : g.Outlined) (start : PlacedToken) :
    OutlinesAt start [] (plainExpression g start) Node.mark := by
  unfold plainExpression
  split
  · exact outlines_declaration hg start
  · exact outlines_declaration hg start
  · exact (outlinesAt_assignmentHead hg).bind fun head =>
      outlines_assignmentValue hg head start.position
  · exact outlines_cascade (outlines_unary hg) _ start

theorem outlines_expressionWith (hg : g.Outlined) : Outlines [] (expressionWith g) Node.mark := by
  unfold expressionWith
  refine Outlines.peek_bind fun start => ?_
  split
  · next form hform =>
    unfold formAt? at hform
    split at hform
    · exact outlines_form hg hform start
    · cases hform
  · -- what a trial has read is taken only if the trial succeeds
    refine (outlinesAt_lambdaHead hg).attemptIf_bind (fun head => ?_) ?_
    · exact outlines_lambdaBody hg head start.position
    · refine (outlinesAt_assignmentHead hg).attemptIf_bind (fun head => ?_) ?_
      · exact outlines_assignmentValue hg head start.position
      · exact outlinesAt_plainExpression hg start

theorem outlines_programWith (hg : g.Outlined) :
    Outlines [] (programWith g) fun p => p.body.map .node := by
  unfold programWith
  refine (outlines_list hg.expression).bind fun l t => ?_
  refine OutlinesAt.isAt_bind (fun _ => OutlinesAt.ite_true (Outlines.done ?_ t))
    (Outlines.failExpecting _ t)
  simp

namespace Inner

theorem Outlined.deepen (hg : g.Outlined) : g.deepen.Outlined where
  forgetful := hg.forgetful
  expression := outlines_expressionWith hg
  unary := outlines_unary hg
  type := outlines_typeName hg

theorem outlined_phrases (depth : Nat) : (phrases depth).Outlined := by
  induction depth with
  | zero =>
    exact ⟨rfl, Outlines.failExpecting _, Outlines.failExpecting _, Outlines.failExpecting _⟩
  | succ depth ih => exact ih.deepen

end Inner

/-- A program that is read from tokens has an outline that runs along them. -/
theorem along_of_parseTokens {ts : List PlacedToken} {p : Program} (h : parseTokens ts = .ok p) :
    Along (closeTokens ts) (p.body.map .node) := by
  rw [parseTokens_eq] at h
  cases hprogram : programWith (phrases ((closeTokens ts).length + 1)) (.ofTokens ts) with
  | error e s =>
    rw [hprogram] at h
    cases h
  | ok p' s =>
    rw [hprogram] at h
    cases h
    have houtline := outlines_programWith (Inner.outlined_phrases ((closeTokens ts).length + 1))
    obtain ⟨vs, hvs, halong⟩ := houtline _ _ _ s rfl hprogram
    have htokens : closeTokens ts = vs ++ s.cursor.rest := hvs
    rw [htokens]
    exact (halong [] .nil).pass _

/-- The node is the other one or stands somewhere inside it. -/
inductive Node.Within : Node → Node → Prop
  | self (n : Node) : Within n n
  | child {m n c : Node} (hc : c ∈ n.kind.children) (inside : Within m c) : Within m n

theorem Node.Ordered.within {us : List PlacedToken} {m n : Node} (h : n.Ordered us)
    (hm : m.Within n) : m.Ordered us := by
  induction hm with
  | self => exact h
  | child hc _ ih =>
    cases h with
    | node _ inside => exact ih (inside _ hc)

/-- Positions of tokens one behind the other have offsets that increase. -/
theorem pairwise_lt_of_sublist {us : List PlacedToken} {ns : List Node} (hus : Increasing us)
    (h : (ns.map (·.position)).Sublist (us.map (·.position))) :
    ns.Pairwise fun m n => m.position.offset < n.position.offset := by
  have hpairwise : (us.map (·.position)).Pairwise fun p q => p.offset < q.offset :=
    List.pairwise_map.2 hus
  have hsublist := hpairwise.sublist h
  rwa [List.pairwise_map] at hsublist

/-- **Positions follow the source.** If a text is read as a program, all positions in the program
are those of tokens of the text; visited from front to back, each node before what is inside it,
their offsets never decrease; and the nodes directly inside a node, or the expressions of the
program, have offsets that increase. -/
theorem parse_positions {text : String} {p : Program} (h : parse text = .ok p) :
    ∃ ts, tokenize text = .ok ts ∧
      (∀ q ∈ p.positions, ∃ t ∈ ts, t.position = q) ∧
      p.positions.Pairwise (fun q r => q.offset ≤ r.offset) ∧
      p.body.Pairwise (fun m n => m.position.offset < n.position.offset) ∧
      ∀ n ∈ p.body, ∀ m : Node, m.Within n →
        m.kind.children.Pairwise fun c d => c.position.offset < d.position.offset := by
  cases htokens : tokenize text with
  | error e =>
    unfold parse at h
    rw [htokens] at h
    cases h
  | ok ts =>
    obtain ⟨hend, hts⟩ := endsInput_tokenize htokens
    have hparse : parseTokens ts = .ok p := by
      rw [parse_of_tokenize htokens] at h
      cases hrun : parseTokens ts with
      | error e =>
        rw [hrun] at h
        cases h
      | ok p' =>
        rw [hrun] at h
        cases h
        rfl
    have halong := along_of_parseTokens hparse
    rw [hend.closeTokens_eq] at halong
    have htraces := halong.traces
    rw [markedPositions_node] at htraces
    refine ⟨ts, rfl, fun q hq => htraces.mem hq, htraces.pairwise hts, ?_, ?_⟩
    · refine pairwise_lt_of_sublist hts ?_
      simpa using halong.apart
    · intro n hn m hm
      have hordered := (halong.inside n (by simpa using hn)).within hm
      cases hordered with
      | node apart _ => exact pairwise_lt_of_sublist hts apart

/-- The sum of `a.b` and `(c)` begins where its first operand does, and so does that one. -/
theorem parse_positions_sum :
    parse "a.b + (c)" = .ok ⟨[⟨.binary .add
      [⟨.primary ⟨.identifier "a", ⟨1, 1, 0⟩⟩ [.attribute "b"], ⟨1, 1, 0⟩⟩,
        ⟨.identifier "c", ⟨1, 8, 7⟩⟩], ⟨1, 1, 0⟩⟩]⟩ ∧
    [⟨1, 1, 0⟩, ⟨1, 1, 0⟩, ⟨1, 1, 0⟩, ⟨1, 8, 7⟩].Pairwise
      (fun q r : Position => q.offset ≤ r.offset) := by
  have htokens : tokenize "a.b + (c)" = .ok [⟨.identifier "a", ⟨1, 1, 0⟩⟩,
      ⟨.punctuator .dot, ⟨1, 2, 1⟩⟩, ⟨.identifier "b", ⟨1, 3, 2⟩⟩, ⟨.punctuator .plus, ⟨1, 5, 4⟩⟩,
      ⟨.punctuator .leftParen, ⟨1, 7, 6⟩⟩, ⟨.identifier "c", ⟨1, 8, 7⟩⟩,
      ⟨.punctuator .rightParen, ⟨1, 9, 8⟩⟩, ⟨.endOfInput, ⟨1, 10, 9⟩⟩] :=
    eq_ok_of_toOption (by decide +kernel)
  have hparse : parse "a.b + (c)" = .ok ⟨[⟨.binary .add
      [⟨.primary ⟨.identifier "a", ⟨1, 1, 0⟩⟩ [.attribute "b"], ⟨1, 1, 0⟩⟩,
        ⟨.identifier "c", ⟨1, 8, 7⟩⟩], ⟨1, 1, 0⟩⟩]⟩ := by
    rw [parse_of_tokenize htokens]
    rfl
  obtain ⟨ts, -, -, hpositions, -⟩ := parse_positions hparse
  exact ⟨hparse, hpositions⟩

end DrakeSyntax
