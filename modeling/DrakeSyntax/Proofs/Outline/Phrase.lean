import DrakeSyntax.Proofs.Outline.Rules

/-!
# The outlines of phrases

Productions are given phrases whose outlines are known (`Inner.Outlined`), and outline what they
read themselves: here types, parameters and targets, what stands in brackets, braces and
parentheses, operands and chains of operators.

* `outlinesAt_lambdaHead`, `outlinesAt_assignmentHead`: what comes before the body of a lambda or
  the value of an assignment begins at the token that was looked at.
* `Along.group`: grouping a chain keeps its operands in order, and every node of it begins where its
  first operand does.
-/

namespace DrakeSyntax

open DrakeSyntax.Parser

/-- The phrases inside outline what they read, and are not remembered. -/
structure Inner.Outlined (g : Inner) : Prop where
  forgetful : g.remembers = false
  expression : Outlines [] g.expression Node.mark
  unary : Outlines [] g.unary Node.mark
  type : Outlines [] g.type TypeHint.marks

variable {g : Inner} {w : List Mark} {t : PlacedToken}

/-- Something need not begin at the token where a phrase does. -/
theorem Outlines.of_at {α : Type} {p : Parser α} {u : α → List Mark}
    (h : ∀ t, OutlinesAt t [] p fun a => [] ++ .place t.position :: u a) : Outlines [] p u :=
  fun t => (h t).weaken fun _ _ hus => hus.drop

/-! ### Types, parameters and targets -/

theorem outlines_typeName (hg : g.Outlined) : Outlines [] (typeName g) TypeHint.marks := by
  unfold typeName
  refine Outlines.identifier_bind fun name q => Outlines.eat_bind (by simp) ?_ ?_
  · refine (outlines_list hg.type).bind fun parameters => ?_
    refine Outlines.skip_bind (by simp) (Outlines.done ?_)
    simp [TypeHint.marks_eq]
  · apply Outlines.done
    simp [TypeHint.marks_eq]

theorem outlinesAt_typeHint (hg : g.Outlined) :
    OutlinesAt t w (typeHint g) fun hint => w ++ .place t.position :: hint.marks := by
  unfold typeHint
  rw [discard_bind]
  refine OutlinesAt.expect_bind (by simp) ((outlines_typeName hg).phrase fun hint => ?_)
  refine Outlines.skip_bind (by simp) (Outlines.done ?_)
  simp

theorem outlines_typeHint (hg : g.Outlined) : Outlines [] (typeHint g) TypeHint.marks :=
  Outlines.of_at fun _ => outlinesAt_typeHint hg

theorem outlines_declaration (hg : g.Outlined) : Outlines [] (declaration g) Node.mark := by
  unfold declaration
  refine Outlines.peek_bind fun start => ?_
  -- the name behind the type is no place
  have hrest (constant : Bool) (hint : TypeHint) :
      Outlines (.place start.position :: hint.marks) (do
        let found ← identifier
        return (⟨.declaration ⟨constant, hint, found.1⟩, start.position⟩ : Node)) Node.mark :=
    Outlines.name_bind fun name _ => Outlines.node rfl
  refine OutlinesAt.eat_bind (by simp) ?_ ?_
  · exact (outlines_typeHint hg).phrase fun hint => hrest true hint
  · exact (outlinesAt_typeHint hg).bind fun hint => hrest false hint

theorem outlinesAt_positionalParameter (hg : g.Outlined) :
    OutlinesAt t w (positionalParameter g) fun p => w ++ .place t.position :: p.marks := by
  unfold positionalParameter
  have hrest (variadic : Bool) (hint : TypeHint) :
      Outlines (w ++ .place t.position :: hint.marks) (do
        let found ← identifier
        return (⟨hint, variadic, found.1⟩ : PositionalParameter)) fun p =>
          w ++ .place t.position :: p.marks :=
    Outlines.name_bind fun name _ => Outlines.done rfl
  refine OutlinesAt.eat_bind (by simp) ?_ ?_
  · refine (outlines_typeHint hg).phrase fun hint => ?_
    simpa using hrest true hint
  · exact (outlinesAt_typeHint hg).bind fun hint => hrest false hint

/-- A parameter with stars in front takes nothing behind its name. -/
theorem outlinesAt_keywordParameter (hg : g.Outlined) :
    OutlinesAt t w (keywordParameter g) fun p => w ++ .place t.position :: p.marks := by
  unfold keywordParameter
  refine OutlinesAt.eat_bind (by simp) ?_ ((outlinesAt_typeHint hg).bind fun hint => ?_)
  · refine (outlines_typeHint hg).phrase fun hint => Outlines.name_bind fun name _ => ?_
    apply Outlines.done
    simp [KeywordParameter.marks, KeywordParameterKind.nodes]
  · refine Outlines.name_bind fun name _ => Outlines.eat_bind (by simp) ?_ ?_
    · refine hg.expression.phrase fun value => Outlines.done ?_
      simp [KeywordParameter.marks, KeywordParameterKind.nodes]
    · apply Outlines.done
      simp [KeywordParameter.marks, KeywordParameterKind.nodes]

/-- The outline of the parameters of a lambda. -/
def Parser.LambdaHead.marks (head : LambdaHead) : List Mark :=
  head.positional.flatMap PositionalParameter.marks ++ head.keyword.flatMap KeywordParameter.marks

theorem outlinesAt_lambdaHead (hg : g.Outlined) :
    OutlinesAt t [] (lambdaHead g) fun head => .place t.position :: head.marks := by
  unfold lambdaHead
  have hlists := outlinesAt_twoKindDelimited (w := []) (r := g.rounds)
    (Outlines.of_at fun _ => outlinesAt_positionalParameter hg)
    (Outlines.of_at fun _ => outlinesAt_keywordParameter hg)
    (outlinesAt_positionalParameter (t := t) hg) (outlinesAt_keywordParameter hg)
  refine hlists.bind ?_
  rintro ⟨positional, keyword⟩
  exact Outlines.skip_bind (by simp) (Outlines.done rfl)

theorem outlines_lambdaBody (hg : g.Outlined) (head : LambdaHead) (position : Position) :
    Outlines (.place position :: head.marks) (lambdaBody g head position) Node.mark := by
  unfold lambdaBody
  refine hg.expression.phrase fun body => Outlines.node ?_
  simp [LambdaHead.marks, NodeKind.marks]

theorem OutlinesAt.targetModifier_bind {β : Type} {v : β → List Mark}
    {f : Option TargetModifier → Parser β}
    (hsome : ∀ modifier, Outlines (w ++ [.place t.position]) (f (some modifier)) v)
    (hnone : OutlinesAt t w (f none) v) : OutlinesAt t w (targetModifier >>= f) v := by
  unfold targetModifier
  rw [bind_assoc]
  refine OutlinesAt.eat_bind (by simp) (hsome .nonlocal) ?_
  simp only [Bool.false_eq_true, if_false, bind_assoc]
  exact OutlinesAt.eat_bind (by simp) (hsome .const) hnone

/-- A target begins at a modifier, at a type or at its name. -/
theorem outlinesAt_target (hg : g.Outlined) :
    OutlinesAt t w (target g) fun a => w ++ .place t.position :: a.marks := by
  unfold target
  refine OutlinesAt.peek_bind ?_
  -- the name is no place unless the target begins with it
  have hdone (modifier : Option TargetModifier) (hint : Option TypeHint) (name : String) :
      Outlines (w ++ .place t.position :: hint.toList.flatMap TypeHint.marks)
        (return (⟨modifier, hint, name, t.position⟩ : Target)) fun a =>
          w ++ .place t.position :: a.marks := by
    refine Outlines.pure fun us hus => ?_
    rw [Target.marks_eq]
    exact hus.again
  have hname (modifier : Option TargetModifier) (hint : TypeHint) :
      Outlines (w ++ .place t.position :: hint.marks) (do
        let found ← identifier
        return (⟨modifier, some hint, found.1, t.position⟩ : Target)) fun a =>
          w ++ .place t.position :: a.marks :=
    Outlines.name_bind fun name _ => by simpa using hdone modifier (some hint) name
  refine OutlinesAt.targetModifier_bind (fun modifier t' => ?_) ?_
  · refine OutlinesAt.isAt_bind (fun _ => OutlinesAt.ite_true ?_) ?_
    · rw [← bind_pure_comp, bind_assoc]
      refine (outlines_typeHint hg).phrase (fun hint => ?_) t'
      simpa using hname (some modifier) hint
    · exact Outlines.name_bind (fun name _ => hdone (some modifier) none name) t'
  · refine OutlinesAt.isAt_bind (fun _ => OutlinesAt.ite_true ?_) ?_
    · rw [← bind_pure_comp, bind_assoc]
      exact (outlinesAt_typeHint hg).bind fun hint => hname none hint
    · exact OutlinesAt.identifier_bind fun name => hdone none none name

/-- The targets of an assignment or a loop begin at a parenthesis or where the only one does. -/
theorem outlinesAt_targets (hg : g.Outlined) (what : String) :
    OutlinesAt t w (targets g what) fun ts =>
      w ++ .place t.position :: ts.flatMap Target.marks := by
  unfold targets
  have htargets := outlinesAt_delimited (r := g.rounds)
    (Outlines.of_at fun _ => outlinesAt_target hg) (outlinesAt_target (t := t) (w := w) hg)
  exact htargets.bind fun ts => Outlines.ite (Outlines.failExpecting _) (Outlines.done rfl)

theorem outlines_targets (hg : g.Outlined) (what : String) :
    Outlines w (targets g what) fun ts => w ++ ts.flatMap Target.marks :=
  fun _ => (outlinesAt_targets hg what).weaken fun _ _ hus => hus.drop

theorem outlinesAt_assignmentHead (hg : g.Outlined) :
    OutlinesAt t [] (assignmentHead g) fun head =>
      .place t.position :: head.targets.flatMap Target.marks := by
  unfold assignmentHead
  refine (outlinesAt_targets hg _).bind fun ts => Outlines.peek_bind fun operatorToken => ?_
  cases hoperator : assignmentOperator? operatorToken.token with
  | none => exact Outlines.failExpecting _ _
  | some operator =>
    have hne : operatorToken.token ≠ .endOfInput := by
      rw [assignmentOperator?_eq_some hoperator]
      exact operator.token_ne_endOfInput
    refine OutlinesAt.discard_advance_bind hne (Outlines.drop ?_ _)
    exact Outlines.done rfl

theorem outlines_assignmentValue (hg : g.Outlined) (head : AssignmentHead) (position : Position) :
    Outlines (.place position :: head.targets.flatMap Target.marks)
      (assignmentValue g head position) Node.mark := by
  unfold assignmentValue
  refine Outlines.ite (Outlines.rejectAt _ _) (Outlines.ite (Outlines.rejectAt _ _) ?_)
  exact hg.expression.phrase fun value => Outlines.node rfl

/-! ### Brackets, braces and parentheses -/

theorem outlines_bracketItems {position : Position} {items : Parser (ItemList Node)}
    (h : Outlines w items fun l => .place position :: l.items.flatMap Node.mark) :
    Outlines w (bracketItems position items) Node.mark := by
  unfold bracketItems
  refine h.bind fun l => Outlines.skip_bind (by simp) (Outlines.node ?_)
  simp [NodeKind.marks, NodeKind.children, ListLiteral.nodes]

/-- A node that may be missing. -/
theorem outlines_some {p : Parser Node} (h : Outlines [] p Node.mark) (w : List Mark) :
    Outlines w (some <$> p) fun n => w ++ n.toList.map .node := by
  apply Outlines.map
  exact (h.behind w).weaken fun n us hus => by simpa using hus

theorem outlines_rangeRest (hg : g.Outlined) (start : Node) (position : Position)
    (stop : Option Node) :
    Outlines (.place position :: start.mark ++ stop.toList.map .node)
      (rangeRest g start position stop) Node.mark := by
  -- the end of the range, whether there is a step or not
  have hclose (step : Option Node) :
      Outlines (.place position :: start.mark ++ stop.toList.map .node ++ step.toList.map .node)
        (do
          discard (eat .newline)
          discard (expect (.punctuator .rightBracket))
          return (⟨.list (.range start stop step), position⟩ : Node)) Node.mark := by
    refine Outlines.eat_newline_bind (Outlines.skip_bind (by simp) (Outlines.node ?_))
    simp [NodeKind.marks, NodeKind.children, ListLiteral.nodes]
  refine Outlines.eat_bind (by simp) ?_ (by simpa using hclose none)
  exact Outlines.eat_newline_bind ((outlines_some hg.unary _).bind fun step => hclose step)

theorem outlines_rangeBehind (hg : g.Outlined) (start : Node) (position : Position) :
    Outlines (.place position :: start.mark) (rangeBehind g start position) Node.mark := by
  have hrest := outlines_rangeRest hg start position
  unfold rangeBehind
  refine Outlines.look_bind isAtItemEnd_run fun atEnd => Outlines.ite ?_ ?_
  · have hnone := hrest none
    rw [Option.toList_none, List.map_nil, List.append_nil] at hnone
    exact hnone
  · exact (outlines_some hg.unary _).bind fun stop => hrest stop

theorem outlines_bracketList (hg : g.Outlined) (position : Position) :
    Outlines [.place position] (bracketItems position (list g.rounds g.expression)) Node.mark :=
  outlines_bracketItems (outlines_list hg.expression)

/-- What is done behind a first operand outlines what was left in front of it: the operand starts a
range or is the first item of a list, or else the items are read anew. -/
theorem outlines_bracketBehind (hg : g.Outlined) (first : Node) (position : Position)
    {s s₁ s' : ParserState} {n : Node} (hfirst : g.unary s = .ok first s₁)
    (hrun : bracketBehind g position first s.cursor s₁ = .ok n s') :
    ∃ vs, s.cursor.rest = vs ++ s'.cursor.rest ∧
      ∀ us, Along us [.place position] → Along (us ++ vs) n.mark := by
  unfold bracketBehind at hrun
  obtain ⟨vs₁, hvs₁, halong₁⟩ := (hg.unary.behind [.place position]) _ s first s₁ rfl hfirst
  -- what goes on behind the operand
  have hbehind {p : Parser Node} (hp : Outlines (.place position :: first.mark) p Node.mark)
      (hp' : p s₁ = .ok n s') : ∃ vs, s.cursor.rest = vs ++ s'.cursor.rest ∧
        ∀ us, Along us [.place position] → Along (us ++ vs) n.mark := by
    obtain ⟨vs₂, hvs₂, halong₂⟩ := hp _ s₁ n s' rfl hp'
    refine ⟨vs₁ ++ vs₂, by rw [hvs₁, hvs₂, List.append_assoc], ?_⟩
    intro us hus
    rw [← List.append_assoc]
    exact halong₂ _ (halong₁ us hus)
  by_cases hdots : s₁.cursor.current.token = .punctuator .dotDot
  · refine hbehind (p := do
      if ← eat (.punctuator .dotDot) then rangeBehind g first position
      else failExpecting []) ?_ ?_
    · exact Outlines.eat_bind (by simp) (outlines_rangeBehind hg first position)
        (Outlines.failExpecting _)
    · rw [bind_of_ok (eat_of_eq hdots)] at hrun ⊢
      exact hrun
  · rw [bind_of_ok (eat_of_ne hdots)] at hrun
    obtain ⟨atEnd, hatEnd⟩ := isAtItemEnd_run s₁
    simp only [Bool.false_eq_true, if_false] at hrun
    rw [bind_of_ok hatEnd] at hrun
    cases atEnd with
    | true =>
      refine hbehind (outlines_bracketItems ?_) hrun
      have hlist := outlines_listBehind (w := [.place position]) (r := g.rounds) hg.expression first
      exact hlist
    | false =>
      -- the cursor is back where the operand began
      exact outlines_bracketList hg position _ { s₁ with cursor := s.cursor } n s' rfl hrun

theorem outlines_bracketContents (hg : g.Outlined) :
    Outlines [] (bracketContents g) Node.mark := by
  unfold bracketContents
  refine Outlines.expect_bind (by simp) fun position => Outlines.eat_newline_bind ?_
  intro t s n s' hs hrun
  -- the cursor is kept, for the first item may have to be read again from here
  rw [bind_of_ok (rfl : mark s = .ok s.cursor s),
    bind_of_ok (rfl : peek s = .ok s.cursor.current s)] at hrun
  by_cases hcloses : s.cursor.current.token.closesList
  · rw [if_pos hcloses] at hrun
    exact outlines_bracketList hg position t s n s' hs hrun
  · rw [if_neg hcloses] at hrun
    cases hunary : g.unary s with
    | error e s₂ =>
      rw [bind_of_ok (attempt_of_error hunary)] at hrun
      exact outlines_bracketList hg position t { s₂ with cursor := s.cursor } n s' hs hrun
    | ok first s₂ =>
      rw [bind_of_ok (attempt_of_ok hunary)] at hrun
      exact outlines_bracketBehind hg first position hunary hrun

theorem outlines_bracket (hg : g.Outlined) : Outlines [] (bracket g) Node.mark := by
  simp only [bracket, hg.forgetful, Bool.false_eq_true, if_false]
  exact outlines_bracketContents hg

theorem outlines_pair (hg : g.Outlined) : Outlines [] (pair g) Pair.marks := by
  unfold pair
  refine hg.expression.bind fun key => Outlines.skip_bind (by simp) ?_
  exact hg.expression.phrase fun value => Outlines.done rfl

theorem flatMap_marks_pairs (pairs : List Pair) :
    pairs.flatMap Pair.marks = (pairs.flatMap Pair.nodes).map .node := by
  rw [List.map_flatMap]
  rfl

theorem outlines_brace (hg : g.Outlined) : Outlines [] (brace g) Node.mark := by
  unfold brace
  refine Outlines.expect_bind (by simp) fun position => Outlines.eat_newline_bind ?_
  refine Outlines.eat_bind (by simp) (Outlines.node rfl) (hg.expression.phrase fun first => ?_)
  refine Outlines.eat_bind (by simp) (hg.expression.phrase fun value => ?_) ?_
  · -- a mapping, whose first pair has been read
    refine (outlines_listBehind (w := [.place position]) (r := g.rounds) (outlines_pair hg)
      ⟨first, value⟩).bind fun pairs => ?_
    refine Outlines.skip_bind (by simp) (Outlines.node ?_)
    rw [flatMap_marks_pairs]
    rfl
  · refine (outlines_listBehind (w := [.place position]) (r := g.rounds) hg.expression
      first).bind fun items => ?_
    refine Outlines.skip_bind (by simp) (Outlines.node ?_)
    rw [flatMap_mark]
    rfl

/-- A block begins at its brace. -/
theorem outlinesAt_blockItems (hg : g.Outlined) :
    OutlinesAt t w (blockItems g) fun ns => w ++ .place t.position :: ns.map .node := by
  unfold blockItems
  rw [discard_bind]
  refine OutlinesAt.expect_bind (by simp) ((outlines_list hg.expression).bind fun items => ?_)
  refine Outlines.skip_bind (by simp) (Outlines.done ?_)
  simp

theorem outlines_block (hg : g.Outlined) : Outlines [] (block g) Node.mark := by
  unfold block
  exact Outlines.peek_bind fun start =>
    (outlinesAt_blockItems hg).bind fun items => Outlines.node rfl

theorem outlines_parenthesized (hg : g.Outlined) :
    Outlines [] (parenthesized g) fun l => .place l.2 :: l.1.items.map .node := by
  unfold parenthesized
  refine Outlines.expect_bind (by simp) fun position => ?_
  refine (outlines_list hg.expression).bind fun items => ?_
  refine Outlines.skip_bind (by simp) (Outlines.done ?_)
  simp

/-- A single expression in parentheses stands for itself, and nothing begins at the
parenthesis. -/
theorem outlines_paren (hg : g.Outlined) : Outlines [] (paren g) Node.mark := by
  unfold paren
  refine (outlines_parenthesized hg).bind fun l => ?_
  match l with
  | (⟨[item], false⟩, position) =>
    refine Outlines.pure fun us hus => ?_
    have hplace : Along us ([] ++ .place position :: [.node item]) := hus
    exact hplace.drop
  | (⟨[], _⟩, position) => exact Outlines.node rfl
  | (⟨[_], true⟩, position) => exact Outlines.node rfl
  | (⟨_ :: _ :: _, _⟩, position) => exact Outlines.node rfl

theorem outlines_tuple (hg : g.Outlined) : Outlines [] (tuple g) Node.mark := by
  unfold tuple
  refine (outlines_parenthesized hg).bind ?_
  rintro ⟨items, position⟩
  exact Outlines.node rfl

/-! ### Operands -/

theorem marks_of_atomOf? {t : Token} {kind : NodeKind} (h : atomOf? t = some kind) :
    kind.marks = [] := by
  unfold atomOf? at h
  split at h
  all_goals cases h
  all_goals rfl

theorem outlines_atom (hg : g.Outlined) : Outlines [] (atom g) Node.mark := by
  unfold atom
  refine Outlines.peek_bind fun start => ?_
  split
  · exact outlines_brace hg start
  · exact outlines_bracket hg start
  · exact outlines_paren hg start
  · cases hatom : atomOf? start.token with
    | none => exact Outlines.failExpecting _ start
    | some kind =>
      refine OutlinesAt.discard_advance_bind (atomOf?_eq_some hatom).2 (Outlines.node ?_)
      rw [marks_of_atomOf? hatom]
      rfl

theorem outlines_keywordArgument (hg : g.Outlined) :
    Outlines [] (keywordArgument g) KeywordArgument.marks := by
  unfold keywordArgument
  refine Outlines.name_bind fun name _ => Outlines.skip_bind (by simp) ?_
  exact hg.expression.phrase fun value => Outlines.done rfl

theorem outlines_trailers (hg : g.Outlined) {r : Nat} :
    Outlines w (trailers g r) fun ts => w ++ ts.flatMap Trailer.marks := by
  induction r generalizing w with
  | zero =>
    apply Outlines.done
    simp
  | succ r ih =>
    -- one more trailer in front of the others
    have hmore (t : Trailer) : Outlines (w ++ t.marks) (return t :: (← trailers g r))
        fun ts => w ++ ts.flatMap Trailer.marks := by
      refine ih.bind fun ts => Outlines.done ?_
      simp
    unfold trailers
    refine Outlines.eat_bind (by simp) ?_ (Outlines.eat_bind (by simp) ?_ fun t =>
      OutlinesAt.isAt_bind (fun _ => OutlinesAt.ite_true ?_) ?_)
    · refine Outlines.name_bind fun name _ => ?_
      simpa [Trailer.marks, Trailer.nodes] using hmore (.attribute name)
    · refine (outlines_twoKindList hg.expression (outlines_keywordArgument hg)).bind ?_
      rintro ⟨positional, keyword⟩
      refine Outlines.skip_bind (by simp) ?_
      have hcall : positional.flatMap Node.mark ++ keyword.flatMap KeywordArgument.marks =
          Trailer.marks (.call positional keyword) := by
        rw [flatMap_mark, Trailer.marks, Trailer.nodes, List.map_append, List.map_map,
          List.map_eq_flatMap (l := keyword)]
        rfl
      rw [hcall]
      exact hmore (.call positional keyword)
    · exact (outlines_bracket hg).phrase (fun operand => hmore (.index operand)) t
    · exact Outlines.done (by simp) t

theorem outlines_primary (hg : g.Outlined) : Outlines [] (primary g) Node.mark := by
  unfold primary
  refine (outlines_atom hg).bind fun base => (outlines_trailers hg).bind fun ts => ?_
  match ts with
  | [] => exact Outlines.done (by simp)
  | t :: ts =>
    refine Outlines.pure fun us hus => Along.node ?_
    have hmarks : NodeKind.marks (.primary base (t :: ts)) =
        base.mark ++ (t :: ts).flatMap Trailer.marks := by
      change Mark.node base :: ((t :: ts).flatMap Trailer.nodes).map .node = _
      rw [List.map_flatMap]
      rfl
    rw [hmarks]
    exact hus.beginning

theorem outlines_unary (hg : g.Outlined) : Outlines [] (unary g) Node.mark := by
  unfold unary
  refine Outlines.peek_bind fun start => ?_
  cases hoperator : unaryOperator? start.token with
  | none => exact outlines_primary hg start
  | some operator =>
    refine OutlinesAt.discard_advance_bind (unaryOperator?_eq_some hoperator).2 ?_
    exact hg.unary.phrase fun operand => Outlines.node rfl

/-! ### Chains of operators -/

/-- The operator of a chain is taken as a whole, and nothing begins at it. -/
theorem outlines_operatorAmong (operators : List BinaryOperator) :
    Outlines w (operatorAmong operators) fun _ => w := by
  intro t s found s' hs hrun
  have hpass (vs : List PlacedToken) (h : s.cursor.rest = vs ++ s'.cursor.rest) :
      ∃ vs, s.cursor.rest = vs ++ s'.cursor.rest ∧ ∀ us, Along us w → Along (us ++ vs) w :=
    ⟨vs, h, fun us hus => hus.pass vs⟩
  unfold operatorAmong at hrun
  rw [bind_of_ok (rfl : peek s = .ok s.cursor.current s),
    bind_of_ok (rfl : peekFollowing s = .ok s.cursor.following s)] at hrun
  cases hspelled : BinaryOperator.ofTokens? s.cursor.current.token s.cursor.following with
  | none =>
    simp only [hspelled] at hrun
    cases hrun
    exact hpass [] rfl
  | some x =>
    obtain ⟨operator, width⟩ := x
    simp only [hspelled] at hrun
    obtain ⟨hend, hwidth⟩ := ofTokens?_eq_some hspelled
    by_cases hmem : operator ∈ operators
    · rw [if_pos hmem] at hrun
      have hfirst := Cursor.rest_eq_cons hend
      rcases hwidth with ⟨rfl, -⟩ | ⟨rfl, -, hne, hend'⟩
      · cases hrun
        exact hpass [s.cursor.current] hfirst
      · have hcurrent := Cursor.current_advance hend hne
        have hsecond := Cursor.rest_eq_cons (c := s.cursor.advance) (by rwa [hcurrent])
        cases hrun
        exact hpass [s.cursor.current, s.cursor.advance.current]
          (hfirst.trans (congrArg _ hsecond))
    · rw [if_neg hmem] at hrun
      cases hrun
      exact hpass [] rfl

theorem outlines_chainRest {operators : List BinaryOperator} {operand : Parser Node}
    (hoperand : Outlines [] operand Node.mark) {r : Nat} :
    Outlines w (chainRest operators operand r) fun rest => w ++ rest.map fun x => .node x.2 := by
  induction r generalizing w with
  | zero =>
    apply Outlines.done
    simp
  | succ r ih =>
    unfold chainRest
    refine (outlines_operatorAmong operators).bind fun found => ?_
    cases found with
    | none =>
      apply Outlines.done
      simp
    | some operator =>
      refine hoperand.phrase fun right => ih.bind fun rest => Outlines.done ?_
      simp

section Grouping

variable {us : List PlacedToken} {ms' : List Mark}

/-- A run of operands of one operator begins where the first of them does. -/
theorem Along.binary (ms : List Mark) {first : Node} {ns : List Node}
    (h : Along us (ms ++ ((first :: ns).map .node ++ ms'))) (operator : BinaryOperator) :
    Along us (ms ++ .node ⟨.binary operator (first :: ns), first.position⟩ :: ms') where
  traces := by
    obtain ⟨kind, position⟩ := first
    have htraces := h.traces
    simp only [markedPositions_append, markedPositions_node, List.flatMap_cons, Node.positions,
      List.cons_append, List.append_assoc] at htraces
    simpa [Node.positions, NodeKind.positions, Node.positionsAll_eq] using htraces.again
  apart := by
    refine List.Sublist.trans ?_ h.apart
    simp only [markedNodes_append, markedNodes_node_cons, markedNodes_node, List.map_append,
      List.map_cons, List.cons_append]
    exact (List.Sublist.refl _).append ((List.sublist_append_right _ _).cons_cons _)
  inside := by
    intro n hn
    simp only [markedNodes_append, markedNodes_node_cons, List.mem_append, List.mem_cons] at hn
    have hall : ∀ m ∈ markedNodes ms ++ (first :: ns ++ markedNodes ms'), m.Ordered us := by
      intro m hm
      refine h.inside m ?_
      rwa [markedNodes_append, markedNodes_append, markedNodes_node]
    rcases hn with hn | rfl | hn
    · exact hall n (by simp [hn])
    · refine .node ?_ fun c hc => hall c (List.mem_append_right _ (List.mem_append_left _ hc))
      refine List.Sublist.trans ?_ h.apart
      rw [markedNodes_append, markedNodes_append, markedNodes_node, List.map_append,
        List.map_append]
      exact (List.sublist_append_left _ _).trans (List.sublist_append_right _ _)
    · exact hall n (by simp [hn])

theorem Along.groupRun (first : Node) (run : List Node) {rest : List (BinaryOperator × Node)}
    (h : Along us ((first :: run).map .node ++ rest.map fun x => .node x.2))
    (operator : BinaryOperator) :
    Along us (OperatorLevel.groupRun first.position operator (first :: run) rest).mark := by
  induction rest generalizing operator first run with
  | nil => exact Along.binary [] h operator
  | cons x rest ih =>
    obtain ⟨next, operand⟩ := x
    unfold OperatorLevel.groupRun
    split
    · -- the run goes on
      refine ih first (run ++ [operand]) ?_ operator
      simpa using h
    · -- the run becomes the first operand of the next one
      exact ih ⟨.binary operator (first :: run), first.position⟩ [operand]
        (Along.binary [] h operator) next

theorem Along.groupRight (ms : List Mark) {first : Node} {rest : List (BinaryOperator × Node)}
    (h : Along us (ms ++ .node first :: rest.map fun x => .node x.2)) :
    Along us (ms ++ (OperatorLevel.groupRight first rest).mark) := by
  induction rest generalizing ms first with
  | nil => exact h
  | cons x rest ih =>
    obtain ⟨operator, operand⟩ := x
    have hpair :
        Along us (ms ++ ([first, OperatorLevel.groupRight operand rest].map .node ++ [])) := by
      have hsplit := ih (ms ++ first.mark) (by simpa using h)
      simpa using hsplit
    rw [OperatorLevel.groupRight]
    exact Along.binary ms hpair operator

/-- **Grouping a chain keeps its operands in order**, and every node of it begins where its first
operand does. -/
theorem Along.group {first : Node} {rest : List (BinaryOperator × Node)}
    (h : Along us (.node first :: rest.map fun x => .node x.2)) (level : OperatorLevel) :
    Along us (level.group first rest).mark := by
  unfold OperatorLevel.group
  split
  · cases rest with
    | nil => exact h
    | cons x rest => exact Along.groupRun first [x.2] h x.1
  · exact Along.groupRight [] h

end Grouping

theorem outlines_cascade {operand : Parser Node} (hoperand : Outlines [] operand Node.mark)
    {r : Nat} (levels : List OperatorLevel) :
    Outlines [] (cascade r operand levels) Node.mark := by
  induction levels with
  | nil => exact hoperand
  | cons level levels ih =>
    unfold cascade chain
    refine ih.bind fun first => (outlines_chainRest ih).bind fun rest => ?_
    exact Outlines.pure fun us hus => hus.group level

end DrakeSyntax
