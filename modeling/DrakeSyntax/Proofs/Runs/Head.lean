import DrakeSyntax.Proofs.Runs.Operand

/-!
# Expressions that are no lambda and no assignment

A lambda and an assignment are recognised by what comes before their arrow or operator. Here it
is shown where such a head cannot be read: a parameter or target cannot begin there, or what
looks like parameters or targets has no arrow or operator behind it.

* `fails_lambdaHead_items`, `fails_assignmentHead_targets`: parameters and targets without an
  arrow or an operator behind them.
* `Headless`: neither head can be read.
* `reads_operandExpression`: where no head can be read, operands with operators between them are
  an expression.
-/

namespace DrakeSyntax

open DrakeSyntax.Parser

variable {g : Inner} {w l k : List Token} {t t' : Token}

/-! ### Where a parameter or a target cannot begin -/

/-- Whether a parameter can begin with the token. -/
def Token.opensParameter : Token → Bool
  | .punctuator .less | .punctuator .star | .punctuator .starStar => true
  | _ => false

/-- Whether a target without parentheses can begin with the token. -/
def Token.opensTarget : Token → Bool
  | .punctuator .less | .identifier _ | .keyword .const | .keyword .nonlocal => true
  | _ => false

theorem fails_typeHint (ht : t ≠ .punctuator .less) : Fails (typeHint g) (t :: l) :=
  Runs.discard_bind (Fails.expect_bind ht)

theorem fails_positionalParameter (ht : t.opensParameter = false) :
    Fails (positionalParameter g) (t :: l) := by
  have hstar : t ≠ .punctuator .star := Token.ne_of_apply ht rfl
  have hless : t ≠ .punctuator .less := Token.ne_of_apply ht rfl
  exact Runs.eat_bind_ne hstar (fails_typeHint hless).bind

theorem fails_keywordParameter (ht : t.opensParameter = false) :
    Fails (keywordParameter g) (t :: l) := by
  have hstars : t ≠ .punctuator .starStar := Token.ne_of_apply ht rfl
  have hless : t ≠ .punctuator .less := Token.ne_of_apply ht rfl
  exact Runs.eat_bind_ne hstars (fails_typeHint hless).bind

theorem fails_target (ht : t.opensTarget = false) : Fails (target g) (t :: l) := by
  have hnonlocal : t ≠ .keyword .nonlocal := Token.ne_of_apply ht rfl
  have hconst : t ≠ .keyword .const := Token.ne_of_apply ht rfl
  have hless : (t == .punctuator .less) = false := beq_false_of_ne (Token.ne_of_apply ht rfl)
  have hname : ∀ name, t ≠ .identifier name := by
    rintro name rfl
    cases ht
  -- no modifier is ahead
  have hmodifier : ReadsOr True targetModifier (t :: l) (t :: l) (· = none) := by
    refine Runs.eat_bind_ne hnonlocal (Runs.ite_false ?_)
    exact Runs.eat_bind_ne hconst (Runs.ite_false (ReadsOr.pure rfl))
  refine Runs.peek_bind fun _ => ?_
  refine hmodifier.bind fun _ _ => ?_
  refine Runs.isAt_bind ?_
  rw [hless]
  exact Runs.ite_false (Fails.identifier_bind hname)

/-- A list fails with its first item. -/
theorem fails_listWith {α : Type} {item : Option α → Parser α} {r : Nat} (ht : t.opensItem)
    (h : Fails (item none) (t :: l)) : Fails (listWith r item) (t :: l) := by
  have hopen : Ahead Token.opensItem (t :: l) := ht
  exact Runs.item_ahead hopen h.bind

theorem fails_lambdaHead_paren (ht : t.opensItem) (hparameter : t.opensParameter = false) :
    Fails (lambdaHead g) (.punctuator .leftParen :: t :: l) := by
  have hitem : Fails (eitherItem (positionalParameter g) (keywordParameter g) none) (t :: l) :=
    fails_longer (fails_positionalParameter hparameter) (fails_keywordParameter hparameter)
  have hlists : Fails (twoKindDelimited g.rounds (positionalParameter g) (keywordParameter g))
      (.punctuator .leftParen :: t :: l) :=
    Runs.eat_bind (by decide) (Runs.ite_true (fails_listWith ht hitem).bind.bind)
  exact hlists.bind

theorem fails_assignmentHead_paren (ht : t.opensItem) (htarget : t.opensTarget = false) :
    Fails (assignmentHead g) (.punctuator .leftParen :: t :: l) := by
  have hlist : Fails (delimited g.rounds (target g)) (.punctuator .leftParen :: t :: l) :=
    Runs.eat_bind (by decide) (Runs.ite_true (fails_listWith ht (fails_target htarget)).bind)
  exact hlist.bind.bind

/-! ### Parameters without an arrow -/

theorem fails_arrow (ht : t ≠ .punctuator .arrow)
    {lists : List PositionalParameter × List KeywordParameter} :
    Fails (do discard (expect (.punctuator .arrow)); return (⟨lists.1, lists.2⟩ : LambdaHead))
      (t :: l) :=
  Runs.discard_bind (Fails.expect_bind ht)

/-- The tokens can be read as parameters of both kinds to their end, or not at all. -/
def ParameterLike (g : Inner) (w : List Token) : Prop :=
  ∀ k, Ahead Token.endsItem k →
    ReadsOr True (positionalParameter g) (w ++ k) k (fun _ => True) ∧
      ReadsOr True (keywordParameter g) (w ++ k) k fun _ => True

theorem fails_lambdaHead_items {ws : List (List Token)} (h : ∀ w ∈ ws, ParameterLike g w)
    (hopens : ∀ w ∈ ws, Ahead Token.opensItem w) (hr : ws.length ≤ g.rounds)
    (ht : t ≠ .punctuator .arrow) :
    Fails (lambdaHead g) (inParens (commaList ws) ++ t :: l) := by
  -- each item can be read to its end or not at all, whichever kind is tried
  have hitem : ∀ w ∈ ws, ∀ last, ∀ k, Ahead Token.endsItem k → ReadsOr True
      (eitherItem (positionalParameter g) (keywordParameter g) last) (w ++ k) k fun _ => True := by
    intro w hw last k hk
    obtain ⟨hpositional, hkeyword⟩ := h w hw k hk
    match last with
    | some (.inr _) => exact hkeyword.bind fun _ _ => ReadsOr.pure trivial
    | some (.inl _) | none => exact runs_longer hpositional hkeyword
  have heach : ∀ last, ReadsEach True
      (eitherItem (positionalParameter g) (keywordParameter g)) id (fun _ _ => True) last ws := by
    clear hopens hr h
    induction ws with
    | nil => exact fun _ => trivial
    | cons w ws ih =>
      obtain ⟨hw, hws⟩ := List.forall_mem_cons.1 hitem
      exact fun last => ⟨hw last, fun a _ => ih hws (some a)⟩
  have hlist : ReadsOr True
      (listWith g.rounds (eitherItem (positionalParameter g) (keywordParameter g)))
      (commaList (ws.map id) ++ .punctuator .rightParen :: t :: l)
      (.punctuator .rightParen :: t :: l)
      fun l => l.trailingComma = false ∧ List.Forall₂ (fun _ _ => True) ws l.items :=
    runs_listWith rfl (heach none) hopens hr
  rw [List.map_id] at hlist
  -- the closing parenthesis is reached and the arrow is missing
  have hwords : inParens (commaList ws) ++ t :: l =
      .punctuator .leftParen :: (commaList ws ++ .punctuator .rightParen :: t :: l) := by
    simp [inParens]
  have hlists : ReadsOr True
      (twoKindDelimited g.rounds (positionalParameter g) (keywordParameter g))
      (inParens (commaList ws) ++ t :: l) (t :: l) fun _ => True := by
    rw [hwords]
    have htwoKinds : ReadsOr True
        (twoKindList g.rounds (positionalParameter g) (keywordParameter g))
        (commaList ws ++ .punctuator .rightParen :: t :: l) (.punctuator .rightParen :: t :: l)
        fun _ => True := hlist.bind fun _ _ => ReadsOr.pure trivial
    refine Runs.eat_bind (by decide) (Runs.ite_true ?_)
    refine htwoKinds.bind fun lists _ => ?_
    exact Runs.discard_bind (Runs.expect_bind (by decide) fun _ => ReadsOr.pure trivial)
  exact hlists.bind fun lists _ => fails_arrow ht

/-- A parameter without parentheses and without an arrow. -/
theorem fails_lambdaHead_item (h : ParameterLike g w) (hw : Ahead Token.opensParameter w)
    (htend : t.endsItem) (ht : t ≠ .punctuator .arrow) : Fails (lambdaHead g) (w ++ t :: l) := by
  obtain ⟨hpositional, hkeyword⟩ := h (t :: l) htend
  have hlonger := runs_longer hpositional hkeyword
  obtain ⟨u, w, rfl, hu⟩ := hw.exists_cons
  have hparen : u ≠ .punctuator .leftParen := Token.ne_of_apply hu rfl
  have hlists : ReadsOr True
      (twoKindDelimited g.rounds (positionalParameter g) (keywordParameter g))
      (u :: w ++ t :: l) (t :: l) fun _ => True := by
    refine Runs.eat_bind_ne hparen (Runs.ite_false ?_)
    exact hlonger.bind fun _ _ => ReadsOr.pure trivial
  exact hlists.bind fun lists _ => fails_arrow ht

/-! ### Targets without an operator -/

/-- The tokens can be read as a target to their end. -/
def TargetLike (g : Inner) (w : List Token) : Prop :=
  ∀ k, Ahead Token.endsItem k → ReadsOr True (target g) (w ++ k) k fun _ => True

theorem fails_assignmentHead_of_targets
    (h : ReadsOr True (delimited g.rounds (target g)) l (t :: k) fun _ => True)
    (ht : assignmentOperator? t = none) : Fails (assignmentHead g) l := by
  have htargets : ReadsOr True (targets g "assignment target") l (t :: k) fun _ => True := by
    refine h.bind fun ts _ => ?_
    split
    · exact Fails.failExpecting.or
    · exact ReadsOr.pure trivial
  refine htargets.bind fun ts _ => ?_
  refine Runs.peek_bind fun _ => ?_
  simp only [ht]
  exact Fails.failExpecting

theorem fails_assignmentHead_targets {ws : List (List Token)} (h : ∀ w ∈ ws, TargetLike g w)
    (hopens : ∀ w ∈ ws, Ahead Token.opensItem w) (hr : ws.length ≤ g.rounds)
    (ht : assignmentOperator? t = none) :
    Fails (assignmentHead g) (inParens (commaList ws) ++ t :: l) := by
  have hwords : inParens (commaList ws) ++ t :: l =
      .punctuator .leftParen :: (commaList (ws.map id) ++ .punctuator .rightParen :: t :: l) := by
    simp [inParens]
  rw [hwords]
  have htargets := (reads_delimited h hopens hr (t :: l)).weaken fun _ _ => trivial
  exact fails_assignmentHead_of_targets htargets ht

/-- A target without parentheses and without an operator. -/
theorem fails_assignmentHead_target
    (h : ReadsOr True (target g) (w ++ t :: l) (t :: l) fun _ => True)
    (hw : Ahead Token.opensTarget w) (ht : assignmentOperator? t = none) :
    Fails (assignmentHead g) (w ++ t :: l) := by
  obtain ⟨u, w, rfl, hu⟩ := hw.exists_cons
  have hparen : u ≠ .punctuator .leftParen := Token.ne_of_apply hu rfl
  refine fails_assignmentHead_of_targets (k := l) (t := t) ?_ ht
  refine Runs.eat_bind_ne hparen (Runs.ite_false ?_)
  exact h.bind fun _ _ => ReadsOr.pure trivial

theorem reads_target_name {E : Prop} (name : String) :
    ReadsOr E (target g) (.identifier name :: l) l fun target =>
      target.modifier = none ∧ target.typeHint.isNone ∧ target.name = name := by
  have hmodifier : ReadsOr E targetModifier (.identifier name :: l) (.identifier name :: l)
      (· = none) := by
    refine Runs.eat_bind_ne (by simp) (Runs.ite_false ?_)
    exact Runs.eat_bind_ne (by simp) (Runs.ite_false (ReadsOr.pure rfl))
  refine Runs.peek_bind fun _ => ?_
  refine hmodifier.bind ?_
  rintro _ rfl
  refine Runs.isAt_bind (Runs.ite_false ?_)
  refine Runs.identifier_bind fun position => ?_
  exact ReadsOr.pure ⟨rfl, rfl, rfl⟩

/-- A name in parentheses with more than a separator behind it. -/
theorem fails_assignmentHead_name {name : String} (hcomma : t ≠ .punctuator .comma)
    (hnewline : t ≠ .newline) (hparen : t ≠ .punctuator .rightParen) :
    Fails (assignmentHead g) (.punctuator .leftParen :: .identifier name :: t :: l) := by
  -- the list of targets ends behind the name
  have hfrom (last : Target) (r : Nat) : ReadsOr True (listFrom (fun _ => target g) r none last)
      (t :: l) (t :: l) fun _ => True := by
    cases r with
    | zero => exact ReadsOr.pure trivial
    | succ r =>
      refine Runs.isAt_bind ?_
      rw [beq_false_of_ne hcomma]
      refine Runs.ite_false (Runs.isAt_bind ?_)
      rw [beq_false_of_ne hnewline]
      exact Runs.ite_false (ReadsOr.pure trivial)
  have hlist : ReadsOr True (list g.rounds (target g)) (.identifier name :: t :: l) (t :: l)
      fun _ => True := by
    have hopen : Ahead Token.opensItem (.identifier name :: t :: l) := rfl
    exact Runs.item_ahead hopen ((reads_target_name name).bind fun last _ => hfrom last g.rounds)
  have htargets : Fails (delimited g.rounds (target g))
      (.punctuator .leftParen :: .identifier name :: t :: l) := by
    refine Runs.eat_bind (by decide) (Runs.ite_true ?_)
    refine hlist.bind fun _ _ => ?_
    exact Runs.discard_bind (Fails.expect_bind hparen)
  exact htargets.bind.bind

/-! ### Expressions without a head -/

/-- Neither the head of a lambda nor that of an assignment can be read. -/
structure Headless (g : Inner) (l : List Token) : Prop where
  lambda : Ahead startsLambda l → Fails (lambdaHead g) l
  assignment : Ahead startsTarget l → Fails (assignmentHead g) l

/-- What the tokens of an expression begin with when that is no head, whatever follows. -/
inductive Opening : List Token → Prop
  | plain {t : Token} {l : List Token} (item : t.opensItem) (lambda : startsLambda t = false)
    (target : startsTarget t = false) : Opening (t :: l)
  | paren {l : List Token} (inside : Opening l) : Opening (.punctuator .leftParen :: l)
  | name {name : String} {t : Token} {l : List Token} (assignment : assignmentOperator? t = none)
    (item : t.endsItem = false) (newline : t ≠ .newline) : Opening (.identifier name :: t :: l)

theorem Opening.append (h : Opening w) (k : List Token) : Opening (w ++ k) := by
  induction h with
  | plain item lambda target => exact .plain item lambda target
  | paren inside ih => exact .paren ih
  | name assignment item newline => exact .name assignment item newline

theorem Opening.opensItem (h : Opening w) : Ahead Token.opensItem w := by
  cases h with
  | plain item lambda target => exact item
  | paren inside => rfl
  | name assignment item newline => rfl

theorem opensParameter_of_startsLambda (h : startsLambda t = false) : t.opensParameter = false := by
  unfold Token.opensParameter
  split
  · cases h
  · cases h
  · cases h
  · rfl

theorem opensTarget_of_startsTarget (h : startsTarget t = false) : t.opensTarget = false := by
  unfold Token.opensTarget
  split
  · cases h
  · cases h
  · cases h
  · cases h
  · rfl

/-- Behind a parenthesis that opens an expression no head can be read. -/
theorem Opening.headless_paren (h : Opening l) : Headless g (.punctuator .leftParen :: l) := by
  cases h with
  | plain item lambda target =>
    exact ⟨fun _ => fails_lambdaHead_paren item (opensParameter_of_startsLambda lambda),
      fun _ => fails_assignmentHead_paren item (opensTarget_of_startsTarget target)⟩
  | paren inside =>
    exact ⟨fun _ => fails_lambdaHead_paren rfl rfl, fun _ => fails_assignmentHead_paren rfl rfl⟩
  | @name name t l assignment item newline =>
    have hcomma : t ≠ .punctuator .comma := Token.ne_of_apply item rfl
    have hparen : t ≠ .punctuator .rightParen := by
      rintro rfl
      cases item
    exact ⟨fun _ => fails_lambdaHead_paren rfl rfl,
      fun _ => fails_assignmentHead_name hcomma newline hparen⟩

theorem headless_name {name : String} (ht : assignmentOperator? t = none) :
    Headless g (.identifier name :: t :: l) where
  lambda h := by cases h
  assignment _ := by
    have htarget : ReadsOr True (target g) (.identifier name :: t :: l) (t :: l) fun _ => True :=
      (reads_target_name name).weaken fun _ _ => trivial
    exact fails_assignmentHead_target (w := [.identifier name]) htarget rfl ht

theorem Opening.headless (h : Opening l) : Headless g l := by
  cases h with
  | plain item lambda target =>
    exact ⟨fun h => absurd h (by simp [Ahead, lambda]), fun h => absurd h (by simp [Ahead, target])⟩
  | paren inside => exact inside.headless_paren
  | name assignment item newline => exact headless_name assignment

/-- Whether an expression of operands and operators can begin with the token. -/
def Token.opensOperand : Token → Bool
  | .punctuator .leftBrace | .punctuator .leftBracket | .punctuator .leftParen => true
  | t => (atomOf? t).isSome || (unaryOperator? t).isSome

theorem endsOperand_of_endsItem (levels : List OperatorLevel) (hk : Ahead Token.endsItem k) :
    EndsOperand levels k := by
  obtain ⟨t, k, rfl, ht⟩ := hk.exists_cons
  rcases Token.endsItem_cases ht with rfl | rfl | rfl | rfl | rfl
  all_goals exact ⟨rfl, by simp [operatorAhead, BinaryOperator.ofTokens?]⟩

theorem assignmentOperator?_of_endsItem {t : Token} (ht : t.endsItem) :
    assignmentOperator? t = none := by
  rcases Token.endsItem_cases ht with rfl | rfl | rfl | rfl | rfl <;> rfl

theorem formAt?_of_opensOperand (ht : t.opensOperand) : formAt? g t = none := by
  unfold formAt?
  split
  · next k => cases k <;> first | rfl | cases ht
  · rfl

theorem plainExpression_of_opensOperand (ht : t.opensOperand) (position : Position) :
    plainExpression g ⟨t, position⟩ = cascade g.rounds (unary g) OperatorLevel.all := by
  unfold plainExpression
  split
  · next h => subst h; cases ht
  · next h => subst h; cases ht
  · next h => subst h; cases ht
  · rfl

/-- Where no head can be read, operands with operators between them are an expression. -/
theorem reads_operandExpression {x : Operand}
    (hx : ReadsOperand (cascade g.rounds (unary g) OperatorLevel.all) OperatorLevel.all x)
    (hopen : Ahead Token.opensOperand x.words) (hk : EndsOperand OperatorLevel.all k)
    (hhead : Headless g (x.words ++ k)) :
    Reads (expressionWith g) (x.words ++ k) k fun n => n.same x.node := by
  have hcascade := hx k hk
  obtain ⟨t, w, hwords, ht⟩ := hopen.exists_cons
  rw [hwords] at hcascade hhead ⊢
  refine Runs.peek_bind fun position => ?_
  simp only [formAt?_of_opensOperand ht]
  refine Fails.attemptIf_bind hhead.lambda (Fails.attemptIf_bind hhead.assignment ?_)
  simp only [plainExpression_of_opensOperand ht]
  exact hcascade

end DrakeSyntax
