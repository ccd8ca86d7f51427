import DrakeSyntax.Proofs.Account.Operand
import DrakeSyntax.Proofs.LooseBreaks.Phrase
import DrakeSyntax.Proofs.Separators.Surroundings

/-!
# Operands overlook line breaks that may be left out

Phrases in brackets, braces and parentheses, atoms with their trailers and operators with their
operands, made of phrases that overlook the line breaks.

* `overlooks_bracketContents`: what is behind an operand that stops in front of a keyword is no
  list, whether the operand is read again or not.
* `overlooks_operatorAmong`: a line break and a keyword that goes on are no part of an operator.
-/

namespace DrakeSyntax

open DrakeSyntax.Parser

variable {xs : List LooseToken} {early : Prop} {α : Type} {g : Inner}

/-! ### Ranges and lists in brackets -/

theorem Token.endsBracketItem_of_continues {t : Token} (h : t.continues) :
    t.endsBracketItem = false := by
  unfold continues at h
  split at h
  · rfl
  · rfl
  · rfl
  · rfl
  · cases h

theorem SameEnd.isAtItemEnd_ite {s s' : ParserState} {p q q' : Parser α}
    (habreast : s.cursor.Abreast xs s'.cursor) (hp : OverlooksOr xs early p)
    (hq : SameEnd xs early (q s) (q' s'))
    (hseam : s.cursor.Seam xs s'.cursor → SameEnd xs early (q s) (p s')) :
    SameEnd xs early ((isAtItemEnd >>= fun atEnd => if atEnd then p else q) s)
      ((isAtItemEnd >>= fun atEnd => if atEnd then p else q') s') := by
  rw [bind_of_ok (isAtItemEnd_eq s), bind_of_ok (isAtItemEnd_eq s')]
  rcases habreast.cases with hmeets | hseamed
  · rw [← hmeets.current]
    cases s.cursor.current.token.endsBracketItem with
    | true => exact hp s s' habreast
    | false => exact hq
  · rw [Token.endsBracketItem_of_continues hseamed.continues, hseamed.newline]
    exact hseam hseamed

theorem overlooks_rangeRest (hg : g.Overlooks xs) (start : Node) (position : Position)
    (stop : Option Node) : Overlooks xs (rangeRest g start position stop) := by
  have hclose (step : Option Node) : Overlooks xs (do
      discard (eat .newline)
      discard (expect (.punctuator .rightBracket))
      return (⟨.list (.range start stop step), position⟩ : Node)) := by
    refine Overlooks.eat_newline_bind (Balks.expect rfl).discard_bind.refuses fun t => ?_
    exact OverlooksOr.at ((Overlooks.expect rfl).discard_bind Overlooks.pure)
  refine Overlooks.eat_bind rfl ?_ (hclose none)
  refine Overlooks.eat_newline_bind hg.balksUnary.map.bind.refuses fun t => OverlooksOr.at ?_
  exact Overlooks.bind (Overlooks.map hg.unary) hclose

/-- A line break in front of a keyword that goes on does not end a range. -/
theorem fails_rangeRest {u : Token} {us : List Token} (hu : u.continues) (start : Node)
    (position : Position) (stop : Option Node) :
    Fails (rangeRest g start position stop) (.newline :: u :: us) := by
  refine Runs.eat_bind_ne (by simp) (Runs.discard_bind (Runs.eat_bind (by simp) ?_))
  exact (Balks.expect rfl).discard_bind.refuses u us hu

theorem overlooks_rangeBehind (hg : g.Overlooks xs) (start : Node) (position : Position) :
    Overlooks xs (rangeBehind g start position) := by
  have hrest := overlooks_rangeRest hg start position
  have hunary : Overlooks xs (some <$> g.unary) := Overlooks.map hg.unary
  intro s s' habreast
  refine SameEnd.isAtItemEnd_ite habreast (hrest none) (hunary.bind hrest s s' habreast)
    fun hseam => ?_
  -- there is no operand at the keyword, and no bracket behind the line break
  obtain ⟨us, htokens⟩ := hseam.exists_tokens
  exact SameEnd.of_errors (hg.balksUnary.map.bind.error hseam.atSeam)
    (error_of_fails (fails_rangeRest hseam.continues start position none) htokens)

theorem overlooks_bracketItems (position : Position) {items : Parser (ItemList Node)}
    (h : OverlooksOr xs True items) : Overlooks xs (bracketItems position items) :=
  Overlooks.closed h rfl fun _ => Overlooks.pure

theorem overlooks_bracketList (hg : g.Overlooks xs) (position : Position) :
    Overlooks xs (bracketItems position (list g.rounds g.expression)) :=
  overlooks_bracketItems position (overlooks_list hg.expression hg.balksExpression)

/-- Behind the last item of a list no keyword goes on. -/
theorem refuses_listFrom_close {item : Option Node → Parser Node} {separator : Option Separator}
    {last : Node} {r : Nat} {position : Position} :
    Refuses (bracketItems position (listFrom item r separator last)) := by
  intro t us ht
  have hclose (l : ItemList Node) : Fails (do
      discard (expect (.punctuator .rightBracket))
      return (⟨.list (.items l.items), position⟩ : Node)) (t :: us) :=
    (Balks.expect rfl).discard_bind.refuses t us ht
  have hne {k : Token} (hk : k.atSeam = false) : t ≠ k :=
    Balks.ne_of_atSeam (Token.atSeam_of_continues ht) hk
  have hnewline : t ≠ .newline := by
    rintro rfl
    cases ht
  refine ReadsOr.bind (m := t :: us) (Q := fun _ => True) ?_ fun l _ => hclose l
  cases r with
  | zero => exact ReadsOr.pure trivial
  | succ r =>
    unfold listFrom
    refine Runs.isAt_bind ?_
    rw [beq_false_of_ne (hne rfl)]
    refine Runs.isAt_bind ?_
    rw [beq_false_of_ne hnewline]
    exact ReadsOr.pure trivial

theorem refuses_bracketList (hg : g.Overlooks xs) (position : Position) :
    Refuses (bracketItems position (list g.rounds g.expression)) := by
  intro u us hu
  have hopens : u.opensItem := by
    have hseam := Token.atSeam_of_continues hu
    simp [Token.opensItem, Token.closesList_of_atSeam hseam, Token.ne_newline_of_continues hu]
  exact (fails_listWith hopens (hg.balksExpression.refuses u us hu)).bind

/-- The first operand is read again as an expression, and behind that is a keyword that goes on. -/
theorem error_bracketList (hg : g.Overlooks xs) (position : Position) {s s₁ r : ParserState}
    {first : Node} (hended : s.cursor.Ended) (hcloses : s.cursor.current.token.closesList = false)
    (hunary : g.unary s = .ok first s₁) (hcontinues : s₁.cursor.current.token.continues)
    (hr : r.cursor = s.cursor) :
    ∃ e r', bracketItems position (list g.rounds g.expression) r = .error e r' := by
  have hnewline : r.cursor.current.token ≠ .newline := by
    intro hnewline
    obtain ⟨e, s', he⟩ := hg.balksUnary.error (s := s) (by rw [← hr, hnewline]; rfl)
    rw [he] at hunary
    cases hunary
  obtain ⟨r₁, hr₁, hcursor⟩ := hg.operand hended hunary hcontinues hr
  have hlist : list g.rounds g.expression r =
      listFrom (fun _ => g.expression) g.rounds none first r₁ := by
    unfold list listWith
    rw [discard_bind, bind_of_ok (eat_of_ne hnewline),
      bind_of_ok (rfl : peek r = .ok r.cursor.current r), hr, hcloses, if_neg Bool.false_ne_true,
      bind_of_ok hr₁]
  have hrun : bracketItems position (list g.rounds g.expression) r =
      bracketItems position (listFrom (fun _ => g.expression) g.rounds none first) r₁ := by
    simp only [bracketItems, Bind.bind, EStateM.bind, hlist]
  rw [hrun]
  exact refuses_listFrom_close.error (hcursor ▸ hcontinues)

/-- Behind the first operand the runs come to the same result, although the first one may read the
operand again where the second one takes it for an item. -/
theorem sameEnd_bracketBehind (hg : g.Overlooks xs) (position : Position) {first : Node}
    {s s' s₁ s₁' : ParserState} (habreast : s.cursor.Abreast xs s'.cursor)
    (habreast₁ : s₁.cursor.Abreast xs s₁'.cursor)
    (hcloses : s.cursor.current.token.closesList = false) (hunary : g.unary s = .ok first s₁) :
    SameEnd xs False (bracketBehind g position first s.cursor s₁)
      (bracketBehind g position first s'.cursor s₁') := by
  have hitems := overlooks_bracketItems position
    (overlooks_listBehind (r := g.rounds) hg.expression hg.balksExpression first)
  refine SameEnd.eat_bind habreast₁ rfl (overlooks_rangeBehind hg first position) ?_
  refine SameEnd.isAtItemEnd_ite habreast₁ hitems ?_ fun hseam => ?_
  · exact overlooks_bracketList hg position { s₁ with cursor := s.cursor }
      { s₁' with cursor := s'.cursor } habreast
  · refine SameEnd.of_errors (error_bracketList hg position habreast.ends.1 hcloses hunary
      hseam.continues rfl) ((hitems s₁ s₁' habreast₁).exists_error ?_)
    exact refuses_listFrom_close.error hseam.continues

theorem overlooks_bracketContents (hg : g.Overlooks xs) : Overlooks xs (bracketContents g) := by
  unfold bracketContents
  refine (Overlooks.expect rfl).bind fun position => ?_
  refine Overlooks.eat_newline_bind ?_ fun t s s' hmeets ht => ?_
  · intro u us hu
    refine Runs.mark_bind fun start => Runs.peek_bind fun p => ?_
    dsimp only
    rw [Token.closesList_of_atSeam (Token.atSeam_of_continues hu)]
    refine Runs.ite_false ((hg.balksUnary.refuses u us hu).attempt_bind fun e => ?_)
    exact refuses_bracketList hg position u us hu
  -- the cursors are kept, for the first item may have to be read again from there
  rw [bind_of_ok (rfl : mark s = .ok s.cursor s), bind_of_ok (rfl : mark s' = .ok s'.cursor s'),
    bind_of_ok (rfl : peek s = .ok s.cursor.current s),
    bind_of_ok (rfl : peek s' = .ok s'.cursor.current s'), ← hmeets.current]
  by_cases hcloses : s.cursor.current.token.closesList
  · rw [if_pos hcloses, if_pos hcloses]
    exact overlooks_bracketList hg position s s' hmeets.abreast
  · rw [if_neg hcloses, if_neg hcloses]
    have hrun := hg.unary s s' hmeets.abreast
    cases hunary : g.unary s with
    | error e s₁ =>
      obtain ⟨e', s₁', hunary'⟩ := hrun.exists_error ⟨e, s₁, hunary⟩
      rw [bind_of_ok (attempt_of_error hunary), bind_of_ok (attempt_of_error hunary')]
      exact overlooks_bracketList hg position { s₁ with cursor := s.cursor }
        { s₁' with cursor := s'.cursor } hmeets.abreast
    | ok first s₁ =>
      obtain ⟨s₁', hunary', habreast₁⟩ := hrun.exists_ok hunary
      rw [bind_of_ok (attempt_of_ok hunary), bind_of_ok (attempt_of_ok hunary')]
      exact sameEnd_bracketBehind hg position hmeets.abreast habreast₁
        (eq_false_of_ne_true hcloses) hunary

theorem overlooks_bracket (hg : g.Overlooks xs) : Overlooks xs (bracket g) := by
  simp only [bracket, hg.forgetful, Bool.false_eq_true, if_false]
  exact overlooks_bracketContents hg

/-! ### Braces and parentheses -/

theorem balks_pair (hg : g.Overlooks xs) : Balks (pair g) := hg.balksExpression.bind

theorem overlooks_pair (hg : g.Overlooks xs) : Overlooks xs (pair g) := by
  refine hg.expression.bind fun key => (Overlooks.expect rfl).discard_bind ?_
  exact hg.expression.bind fun value => Overlooks.pure

theorem overlooks_brace (hg : g.Overlooks xs) : Overlooks xs (brace g) := by
  unfold brace
  refine (Overlooks.expect rfl).bind fun position => ?_
  refine Overlooks.eat_newline_bind (Balks.eat_bind rfl hg.balksExpression.bind).refuses
    fun t => OverlooksOr.at ?_
  refine Overlooks.eat_bind rfl Overlooks.pure (hg.expression.bind fun first => ?_)
  refine Overlooks.eat_bind rfl (hg.expression.bind fun value => ?_) ?_
  · exact Overlooks.closed (overlooks_listBehind (overlooks_pair hg) (balks_pair hg) _) rfl
      fun pairs => Overlooks.pure
  · exact Overlooks.closed (overlooks_listBehind hg.expression hg.balksExpression first) rfl
      fun items => Overlooks.pure

theorem balks_blockItems : Balks (blockItems g) := (Balks.expect rfl).discard_bind

theorem overlooks_blockItems (hg : g.Overlooks xs) : Overlooks xs (blockItems g) := by
  refine (Overlooks.expect rfl).discard_bind ?_
  exact Overlooks.closed (overlooks_list hg.expression hg.balksExpression) rfl
    fun items => Overlooks.pure

theorem overlooks_block (hg : g.Overlooks xs) : Overlooks xs (block g) := by
  refine Overlooks.peek_bind (Balks.peek_bind fun _ _ => balks_blockItems.bind) fun start => ?_
  exact OverlooksOr.at ((overlooks_blockItems hg).bind fun items => Overlooks.pure)

theorem overlooks_parenthesized (hg : g.Overlooks xs) : Overlooks xs (parenthesized g) := by
  refine (Overlooks.expect rfl).bind fun position => ?_
  exact Overlooks.closed (overlooks_list hg.expression hg.balksExpression) rfl
    fun items => Overlooks.pure

theorem overlooks_paren (hg : g.Overlooks xs) : Overlooks xs (paren g) := by
  rw [paren_eq]
  exact (overlooks_parenthesized hg).bind fun l => Overlooks.pure

theorem overlooks_tuple (hg : g.Overlooks xs) : Overlooks xs (tuple g) :=
  (overlooks_parenthesized hg).bind fun _ => Overlooks.pure

/-! ### Operands -/

theorem Token.opensOperand_of_atSeam {t : Token} (h : t.atSeam) : t.opensOperand = false := by
  rcases Token.atSeam_cases h with rfl | rfl | rfl | rfl | rfl <;> rfl

theorem balks_atom : Balks (atom g) := fun _ _ ht => fails_atom (Token.opensOperand_of_atSeam ht)

theorem overlooks_atom (hg : g.Overlooks xs) : Overlooks xs (atom g) := by
  refine Overlooks.peek_bind balks_atom fun start => ?_
  split
  · exact (overlooks_brace hg).at
  · exact (overlooks_bracket hg).at
  · exact (overlooks_paren hg).at
  · cases atomOf? start.token with
    | none => exact (Overlooks.failExpecting _).at
    | some kind => exact OverlooksAt.discard_advance_bind Overlooks.pure

theorem balks_keywordArgument : Balks (keywordArgument g) := Balks.identifier.bind

theorem overlooks_keywordArgument (hg : g.Overlooks xs) : Overlooks xs (keywordArgument g) := by
  refine Overlooks.identifier.bind fun found => (Overlooks.expect rfl).discard_bind ?_
  exact hg.expression.bind fun value => Overlooks.pure

theorem overlooks_trailers (hg : g.Overlooks xs) (r : Nat) : Overlooks xs (trailers g r) := by
  induction r with
  | zero => exact Overlooks.pure
  | succ r ih =>
    -- one more trailer in front of the others
    have hmore (t : Trailer) : Overlooks xs (return t :: (← trailers g r)) :=
      Overlooks.bind ih fun ts => Overlooks.pure
    unfold trailers
    refine Overlooks.eat_bind rfl (Overlooks.identifier.bind fun found => hmore _) ?_
    refine Overlooks.eat_bind rfl ?_ (Overlooks.isAt_ite rfl (fun t _ => OverlooksOr.at ?_) ?_)
    · exact Overlooks.closed (overlooks_twoKindList hg.expression (overlooks_keywordArgument hg)
        hg.balksExpression balks_keywordArgument) rfl fun arguments => hmore _
    · exact (overlooks_bracket hg).bind fun operand => hmore _
    · exact Overlooks.pure

theorem overlooks_primary (hg : g.Overlooks xs) : Overlooks xs (primary g) := by
  refine (overlooks_atom hg).bind fun base => (overlooks_trailers hg g.rounds).bind fun ts => ?_
  cases ts with
  | nil => exact Overlooks.pure
  | cons t ts => exact Overlooks.pure

theorem balks_unary : Balks (unary g) := fun _ _ ht => fails_unary (Token.opensOperand_of_atSeam ht)

theorem overlooks_unary (hg : g.Overlooks xs) : Overlooks xs (unary g) := by
  refine Overlooks.peek_bind balks_unary fun start => ?_
  cases unaryOperator? start.token with
  | none => exact (overlooks_primary hg).at
  | some operator =>
    exact OverlooksAt.discard_advance_bind (hg.unary.bind fun operand => Overlooks.pure)

/-! ### Chains of operators -/

/-- Neither a line break nor a keyword that goes on is the second token of an operator. -/
theorem ofTokens?_of_atSeam {t u : Token} (h : u.atSeam) :
    BinaryOperator.ofTokens? t u = BinaryOperator.ofTokens? t .newline := by
  have hin : u ≠ .keyword .in_ := Balks.ne_of_atSeam h rfl
  have hnot : u ≠ .keyword .not := Balks.ne_of_atSeam h rfl
  unfold BinaryOperator.ofTokens?
  split
  all_goals simp only [hin, hnot, if_false, reduceCtorEq]

/-- No operator begins with them either. -/
theorem ofTokens?_eq_none_of_atSeam {t u : Token} (h : t.atSeam) :
    BinaryOperator.ofTokens? t u = none := by
  rcases Token.atSeam_cases h with rfl | rfl | rfl | rfl | rfl <;> rfl

/-- At the same token both runs find the same operator. -/
theorem Cursor.Meets.ofTokens?_eq {c c' : Cursor} (h : c.Meets xs c') :
    BinaryOperator.ofTokens? c.current.token c.following =
      BinaryOperator.ofTokens? c'.current.token c'.following := by
  rw [← h.current]
  by_cases hend : c.current.token = .endOfInput
  · rw [hend]
    rfl
  · rw [h.abreast.ends.1.following_eq hend, h.abreast.ends.2.following_eq (h.current ▸ hend)]
    rcases h.advance.cases with hmeets | hseam
    · rw [hmeets.current]
    · rw [ofTokens?_of_atSeam hseam.atSeam, ofTokens?_of_atSeam hseam.atSeam']

/-- Both runs take as many tokens for an operator. -/
theorem abreast_advanceBy {s s' : ParserState} {operator : BinaryOperator} {width : Nat}
    (hmeets : s.cursor.Meets xs s'.cursor)
    (h : BinaryOperator.ofTokens? s.cursor.current.token s.cursor.following =
      some (operator, width)) :
    ∃ r r', advanceBy width s = .ok () r ∧ advanceBy width s' = .ok () r' ∧
      r.cursor.Abreast xs r'.cursor := by
  have hend := Token.ne_endOfInput_of_isPlain (isPlain_of_ofTokens? h)
  rcases hmeets.advance.cases with hmeets₁ | hseam
  · rcases width_of_ofTokens? h with rfl | ⟨rfl, -⟩
    · exact ⟨_, _, rfl, rfl, hmeets.advance⟩
    · exact ⟨_, _, rfl, rfl, hmeets₁.advance⟩
  · -- the operator ends in front of the line break
    rw [hmeets.abreast.ends.1.following_eq hend, ofTokens?_of_atSeam hseam.atSeam] at h
    rcases width_of_ofTokens? h with rfl | ⟨-, w, hkeyword⟩
    · exact ⟨_, _, rfl, rfl, hmeets.advance⟩
    · cases hkeyword

theorem overlooks_operatorAmong (operators : List BinaryOperator) :
    Overlooks xs (operatorAmong operators) := by
  intro s s' habreast
  unfold operatorAmong
  rw [bind_of_ok (rfl : peek s = .ok s.cursor.current s),
    bind_of_ok (rfl : peek s' = .ok s'.cursor.current s'),
    bind_of_ok (rfl : peekFollowing s = .ok s.cursor.following s),
    bind_of_ok (rfl : peekFollowing s' = .ok s'.cursor.following s')]
  rcases habreast.cases with hmeets | hseam
  · rw [← hmeets.ofTokens?_eq]
    cases hfound : BinaryOperator.ofTokens? s.cursor.current.token s.cursor.following with
    | none => exact .ok habreast
    | some found =>
      obtain ⟨operator, width⟩ := found
      simp only
      split
      · obtain ⟨r, r', hr, hr', habreast'⟩ := abreast_advanceBy hmeets hfound
        rw [bind_of_ok hr, bind_of_ok hr']
        exact .ok habreast'
      · exact .ok habreast
  · rw [ofTokens?_eq_none_of_atSeam hseam.atSeam, ofTokens?_eq_none_of_atSeam hseam.atSeam']
    exact .ok habreast

theorem overlooks_chainRest {operators : List BinaryOperator} {operand : Parser Node}
    (h : Overlooks xs operand) (r : Nat) : Overlooks xs (chainRest operators operand r) := by
  induction r with
  | zero => exact Overlooks.pure
  | succ r ih =>
    refine (overlooks_operatorAmong operators).bind fun found => ?_
    cases found with
    | none => exact Overlooks.pure
    | some operator =>
      exact h.bind fun right => Overlooks.bind ih fun rest => Overlooks.pure

theorem overlooks_cascade {operand : Parser Node} (h : Overlooks xs operand) (r : Nat)
    (levels : List OperatorLevel) : Overlooks xs (cascade r operand levels) := by
  induction levels with
  | nil => exact h
  | cons level levels ih =>
    exact Overlooks.bind ih fun first =>
      (overlooks_chainRest ih r).bind fun rest => Overlooks.pure

end DrakeSyntax
