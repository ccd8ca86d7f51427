import DrakeSyntax.Proofs.Account.Binding

/-!
# What becomes of the tokens of operands and chains

Brackets, braces, parentheses, trailers and chains of operators account for their tokens when the
phrases inside them do.

* `accounts_bracketContents`: also where the first item is read twice.
* `significant_group`: grouping a chain keeps operands and operators in order.
-/

namespace DrakeSyntax

open DrakeSyntax.Parser

variable {g : Inner} {w : List Token}

/-! ### Brackets -/

theorem significant_writtenOption (n : Option Node) :
    significant (Node.writtenOption n) = significant (n.toList.flatMap Node.written) := by
  cases n <;> simp [Node.writtenOption]

theorem significant_writtenStep (n : Option Node) :
    significant (ListLiteral.writtenStep n) = significant (n.toList.flatMap Node.written) := by
  cases n <;> simp [ListLiteral.writtenStep]

theorem accounts_isAtItemEnd : Accounts w isAtItemEnd fun _ => w := by
  unfold isAtItemEnd
  refine Accounts.peek_bind fun t => Accounts.at ?_
  split <;> exact Accounts.pure rfl

theorem accounts_bracketItems {position : Position} {items : Parser (ItemList Node)}
    (h : Accounts w items fun l => l.items.flatMap Node.written) :
    Accounts w (bracketItems position items) Node.written := by
  unfold bracketItems
  refine h.bind fun l => ?_
  refine Accounts.discard_bind (Accounts.expect_bind (by simp) fun _ => ?_)
  apply Accounts.pure
  simp [Node.written, NodeKind.written, ListLiteral.written, Node.writtenAll_eq_map,
    List.flatMap_map]

/-- A node that may be missing. -/
theorem accounts_some {p : Parser Node} (h : Accounts [] p Node.written) (w : List Token) :
    Accounts w (some <$> p) fun n => w ++ n.toList.flatMap Node.written := by
  apply Accounts.map
  exact (h.behind w).weaken fun n => by simp

/-- The rest of a range behind its end, or behind the two dots when it has none. -/
def rangeRest (g : Inner) (start : Node) (position : Position) (stop : Option Node) :
    Parser Node := do
  let step ←
    if ← eat (.punctuator .comma) then do
      discard (eat .newline)
      some <$> g.unary
    else pure none
  discard (eat .newline)
  discard (expect (.punctuator .rightBracket))
  return ⟨.list (.range start stop step), position⟩

theorem accounts_rangeRest (hg : g.Accountable) (start : Node) (position : Position)
    (stop : Option Node) :
    Accounts (start.written ++ [.punctuator .dotDot] ++ stop.toList.flatMap Node.written)
      (rangeRest g start position stop) Node.written := by
  -- the end of the range, whether there is a step or not
  have hclose (step : Option Node) :
      Accounts (start.written ++ [.punctuator .dotDot] ++ stop.toList.flatMap Node.written
          ++ step.toList.flatMap Node.written) (do
        discard (eat .newline)
        discard (expect (.punctuator .rightBracket))
        return (⟨.list (.range start stop step), position⟩ : Node)) Node.written := by
    refine Accounts.discard_bind (Accounts.eat_newline_bind fun _ => ?_)
    refine Accounts.discard_bind (Accounts.expect_bind (by simp) fun _ => ?_)
    apply Accounts.pure
    simp [Node.written, NodeKind.written, ListLiteral.written, significant_writtenOption,
      significant_writtenStep]
  refine Accounts.eat_bind (by simp) (Accounts.ite ?_ ?_) ((hclose none).congr (by simp))
  · refine Accounts.discard_bind (Accounts.eat_newline_bind fun _ => ?_)
    refine (accounts_some hg.unary _).bind fun step => ?_
    exact (hclose step).congr (by simp)
  · exact (hclose none).congr (by simp)

theorem accounts_rangeBehind (hg : g.Accountable) (start : Node) (position : Position) :
    Accounts (start.written ++ [.punctuator .dotDot]) (rangeBehind g start position)
      Node.written := by
  have hrest := accounts_rangeRest hg start position
  unfold rangeBehind
  refine accounts_isAtItemEnd.bind fun atEnd => Accounts.ite ?_ ?_
  · exact (hrest none).congr (by simp)
  · exact (accounts_some hg.unary _).bind fun stop => hrest stop

theorem isAtItemEnd_run (s : ParserState) : ∃ atEnd, isAtItemEnd s = .ok atEnd s := by
  unfold isAtItemEnd
  rw [bind_of_ok (rfl : peek s = .ok s.cursor.current s)]
  cases s.cursor.current.token with
  | punctuator p => cases p <;> exact ⟨_, rfl⟩
  | _ => exact ⟨_, rfl⟩

theorem accounts_bracketList (hg : g.Accountable) (position : Position) :
    Accounts [] (bracketItems position (list g.rounds g.expression)) Node.written :=
  accounts_bracketItems (accounts_list hg.expression)

/-- The rest of a bracketed phrase behind its first operand, which begins at `start`. -/
def bracketBehind (g : Inner) (position : Position) (first : Node) (start : Cursor) :
    Parser Node := do
  if ← eat (.punctuator .dotDot) then rangeBehind g first position
  else if ← isAtItemEnd then bracketItems position (listBehind g.rounds first g.expression)
  else
    reset start
    bracketItems position (list g.rounds g.expression)

/-- What is done behind a first operand accounts for what was pending in front of it: the operand
starts a range or is the first item of a list, or else the items are read anew. -/
theorem accounts_bracketBehind (hg : g.Accountable) (first : Node) (position : Position)
    {s s₁ s' : ParserState} {n : Node}
    (hfirst : s.pending = significant first.written ++ s₁.pending)
    (hrun : bracketBehind g position first s.cursor s₁ = .ok n s') :
    s.pending = significant n.written ++ s'.pending := by
  obtain ⟨_, _, heat, hbehind⟩ := bind_eq_ok hrun
  by_cases hdots : s₁.cursor.current.token = .punctuator .dotDot
  · rw [eat_of_eq hdots] at heat
    cases heat
    have hrange := accounts_rangeBehind hg first position _ n s' hbehind
    rw [hfirst, ParserState.pending_eq hdots (by simp), ← hrange]
    simp
  · rw [eat_of_ne hdots] at heat
    cases heat
    obtain ⟨atEnd, hatEnd⟩ := isAtItemEnd_run s₁
    obtain ⟨_, _, hend, hlast⟩ := bind_eq_ok hbehind
    rw [hatEnd] at hend
    cases hend
    cases atEnd with
    | true =>
      have hlist : Accounts first.written (listBehind g.rounds first g.expression)
          fun l => l.items.flatMap Node.written := accounts_listBehind (w := []) hg.expression first
      rw [hfirst]
      exact accounts_bracketItems hlist s₁ n s' hlast
    | false =>
      -- the cursor is back where the operand began
      exact accounts_bracketList hg position { s₁ with cursor := s.cursor } n s' hlast

theorem accounts_bracketContents (hg : g.Accountable) :
    Accounts [] (bracketContents g) Node.written := by
  unfold bracketContents
  refine Accounts.expect_bind (by simp) fun position => ?_
  refine Accounts.discard_bind (Accounts.eat_newline_bind fun _ => ?_)
  suffices h : Accounts [] _ Node.written from h.congr (by simp)
  intro s n s' hrun
  -- the cursor is kept, for the first item may have to be read again from here
  obtain ⟨_, _, hmark, hpeek⟩ := bind_eq_ok hrun
  cases hmark
  obtain ⟨t, _, ht, hbranch⟩ := bind_eq_ok hpeek
  cases ht
  by_cases hcloses : s.cursor.current.token.closesList
  · rw [if_pos hcloses] at hbranch
    exact accounts_bracketList hg position s n s' hbranch
  · rw [if_neg hcloses] at hbranch
    obtain ⟨r, s₁, hattempt, hafter⟩ := bind_eq_ok hbranch
    unfold attempt at hattempt
    cases hunary : g.unary s with
    | error e s₂ =>
      rw [hunary] at hattempt
      cases hattempt
      exact accounts_bracketList hg position { s₂ with cursor := s.cursor } n s' hafter
    | ok first s₂ =>
      rw [hunary] at hattempt
      cases hattempt
      exact accounts_bracketBehind hg first position (hg.unary s first s₁ hunary) hafter

theorem accounts_bracket (hg : g.Accountable) : Accounts [] (bracket g) Node.written := by
  simp only [bracket, hg.forgetful, Bool.false_eq_true, if_false]
  exact accounts_bracketContents hg

/-! ### Braces and parentheses -/

theorem accounts_pair (hg : g.Accountable) : Accounts [] (pair g) Pair.written := by
  unfold pair
  refine hg.expression.bind fun key => ?_
  refine Accounts.discard_bind (Accounts.expect_bind (by simp) fun _ => ?_)
  refine hg.expression.phrase fun value => ?_
  apply Accounts.pure
  simp [Pair.written]

theorem significant_mapping (pairs : List Pair) :
    significant (NodeKind.written (.mapping pairs)) = significant (pairs.flatMap Pair.written) := by
  simp [NodeKind.written, Pair.writtenAll_eq_map, List.flatMap_map]

theorem significant_block (items : List Node) :
    significant (NodeKind.written (.block items)) = significant (items.flatMap Node.written) := by
  simp [NodeKind.written, Node.writtenAll_eq_map, List.flatMap_map]

theorem accounts_brace (hg : g.Accountable) : Accounts [] (brace g) Node.written := by
  unfold brace
  refine Accounts.expect_bind (by simp) fun position => ?_
  refine Accounts.discard_bind (Accounts.eat_newline_bind fun _ => ?_)
  refine Accounts.eat_bind (by simp) ?_ (hg.expression.phrase fun first => ?_)
  · apply Accounts.pure
    simp [Node.written, significant_block]
  refine Accounts.eat_bind (by simp) (hg.expression.phrase fun value => ?_) ?_
  · -- a mapping, whose first pair has been read
    have hpairs := accounts_listBehind (w := []) (r := g.rounds) (accounts_pair hg) ⟨first, value⟩
    refine (hpairs.congr (by simp [Pair.written])).bind fun pairs => ?_
    refine Accounts.discard_bind (Accounts.expect_bind (by simp) fun _ => ?_)
    apply Accounts.pure
    simp [Node.written, significant_mapping]
  · have hitems := accounts_listBehind (w := []) (r := g.rounds) hg.expression first
    refine (hitems.congr (by simp)).bind fun items => ?_
    refine Accounts.discard_bind (Accounts.expect_bind (by simp) fun _ => ?_)
    apply Accounts.pure
    simp [Node.written, significant_block]

theorem accounts_blockItems (hg : g.Accountable) :
    Accounts [] (blockItems g) fun ns => ns.flatMap Node.written := by
  unfold blockItems
  refine Accounts.discard_bind (Accounts.expect_bind (by simp) fun _ => ?_)
  refine (accounts_list hg.expression).bind fun items => ?_
  refine Accounts.discard_bind (Accounts.expect_bind (by simp) fun _ => ?_)
  apply Accounts.pure
  simp

theorem accounts_block (hg : g.Accountable) : Accounts [] (block g) Node.written := by
  unfold block
  refine Accounts.peek_bind fun start => Accounts.at ?_
  refine (accounts_blockItems hg).bind fun items => ?_
  apply Accounts.pure
  simp [Node.written, significant_block]

theorem accounts_parenthesized (hg : g.Accountable) :
    Accounts [] (parenthesized g) fun l => l.1.items.flatMap Node.written := by
  unfold parenthesized
  refine Accounts.expect_bind (by simp) fun position => ?_
  refine (accounts_list hg.expression).bind fun items => ?_
  refine Accounts.discard_bind (Accounts.expect_bind (by simp) fun _ => ?_)
  apply Accounts.pure
  simp

/-- The comma behind the only item of a tuple is not significant. -/
theorem significant_tuple (items : List Node) :
    significant (NodeKind.written (.tuple items)) = significant (items.flatMap Node.written) := by
  have hcomma : significant (if items.length = 1 then [.punctuator .comma] else []) = [] := by
    split <;> simp
  simp [NodeKind.written, Node.writtenAll_eq_map, List.flatMap_map, hcomma]

theorem accounts_paren (hg : g.Accountable) : Accounts [] (paren g) Node.written := by
  unfold paren
  refine (accounts_parenthesized hg).bind fun l => ?_
  match l with
  | (⟨[item], false⟩, position) =>
    apply Accounts.pure
    simp
  | (⟨[], _⟩, position) => exact Accounts.pure (significant_tuple _).symm
  | (⟨[_], true⟩, position) => exact Accounts.pure (significant_tuple _).symm
  | (⟨_ :: _ :: _, _⟩, position) => exact Accounts.pure (significant_tuple _).symm

theorem accounts_tuple (hg : g.Accountable) : Accounts [] (tuple g) Node.written := by
  unfold tuple
  refine (accounts_parenthesized hg).bind fun (items, position) => ?_
  exact Accounts.pure (significant_tuple _).symm

/-! ### Operands -/

theorem atomOf?_eq_some {t : Token} {kind : NodeKind} (h : atomOf? t = some kind) :
    kind.written = [t] ∧ t ≠ .endOfInput := by
  unfold atomOf? at h
  split at h
  all_goals cases h
  all_goals exact ⟨rfl, Token.noConfusion⟩

theorem accounts_atom (hg : g.Accountable) : Accounts [] (atom g) Node.written := by
  unfold atom
  refine Accounts.peek_bind fun start => ?_
  split
  · exact (accounts_brace hg).at
  · exact (accounts_bracket hg).at
  · exact (accounts_paren hg).at
  · cases hatom : atomOf? start.token with
    | none => exact (Accounts.failExpecting _).at
    | some kind =>
      obtain ⟨hwritten, hne⟩ := atomOf?_eq_some hatom
      refine AccountsAt.discard_advance_bind hne ?_
      apply Accounts.pure
      rw [Node.written, hwritten, List.nil_append]

theorem accounts_keywordArgument (hg : g.Accountable) :
    Accounts [] (keywordArgument g) KeywordArgument.written := by
  unfold keywordArgument
  refine Accounts.identifier_bind fun name _ => ?_
  refine Accounts.discard_bind (Accounts.expect_bind (by simp) fun _ => ?_)
  refine hg.expression.phrase fun value => ?_
  apply Accounts.pure
  simp [KeywordArgument.written]

theorem Trailer.writtenAll_eq_flatMap (ts : List Trailer) :
    Trailer.writtenAll ts = ts.flatMap Trailer.written := by
  induction ts with
  | nil => rfl
  | cons t ts ih => rw [Trailer.writtenAll, ih, List.flatMap_cons]

theorem accounts_trailers (hg : g.Accountable) {r : Nat} :
    Accounts w (trailers g r) fun ts => w ++ ts.flatMap Trailer.written := by
  induction r generalizing w with
  | zero =>
    apply Accounts.pure
    simp
  | succ r ih =>
    -- one more trailer in front of the others
    have hmore (t : Trailer) : Accounts (w ++ t.written) (return t :: (← trailers g r))
        fun ts => w ++ ts.flatMap Trailer.written := by
      refine ih.bind fun ts => ?_
      apply Accounts.pure
      simp
    unfold trailers
    refine Accounts.eat_bind (by simp) ?_ (Accounts.eat_bind (by simp) ?_
      (Accounts.isAt_bind (Accounts.at ?_) ?_))
    · refine Accounts.identifier_bind fun name _ => ?_
      exact (hmore (.attribute name)).congr (by simp [Trailer.written])
    · refine (accounts_twoKindList hg.expression (accounts_keywordArgument hg)).bind
        fun (positional, keyword) => ?_
      refine Accounts.discard_bind (Accounts.expect_bind (by simp) fun _ => ?_)
      refine (hmore (.call positional keyword)).congr ?_
      simp [Trailer.written, Node.writtenAll_eq_map, KeywordArgument.writtenAll_eq_map,
        List.flatMap_map]
    · refine (accounts_bracket hg).phrase fun operand => ?_
      exact (hmore (.index operand)).congr (by simp [Trailer.written])
    · apply Accounts.pure
      simp

theorem accounts_primary (hg : g.Accountable) : Accounts [] (primary g) Node.written := by
  unfold primary
  refine (accounts_atom hg).bind fun base => ?_
  refine (accounts_trailers hg).bind fun ts => ?_
  match ts with
  | [] =>
    apply Accounts.pure
    simp
  | t :: ts =>
    apply Accounts.pure
    simp [Node.written, NodeKind.written, Trailer.writtenAll_eq_flatMap]

theorem unaryOperator?_eq_some {t : Token} {operator : UnaryOperator}
    (h : unaryOperator? t = some operator) : t = operator.token ∧ t ≠ .endOfInput := by
  unfold unaryOperator? at h
  split at h
  all_goals cases h
  all_goals exact ⟨rfl, Token.noConfusion⟩

theorem accounts_unary (hg : g.Accountable) : Accounts [] (unary g) Node.written := by
  unfold unary
  refine Accounts.peek_bind fun start => ?_
  cases hoperator : unaryOperator? start.token with
  | none => exact (accounts_primary hg).at
  | some operator =>
    obtain ⟨htoken, hne⟩ := unaryOperator?_eq_some hoperator
    refine AccountsAt.discard_advance_bind hne (hg.unary.phrase fun operand => ?_)
    apply Accounts.pure
    simp [Node.written, NodeKind.written, htoken]

/-! ### Chains of operators -/

/-- An operator is spelled by the first of two tokens or by both of them. -/
theorem ofTokens?_eq_some {t x : Token} {operator : BinaryOperator} {width : Nat}
    (h : BinaryOperator.ofTokens? t x = some (operator, width)) :
    t ≠ .endOfInput ∧ (width = 1 ∧ operator.tokens = [t] ∨
      width = 2 ∧ operator.tokens = [t, x] ∧ x ≠ t ∧ x ≠ .endOfInput) := by
  unfold BinaryOperator.ofTokens? at h
  split at h
  -- operators with a second token
  case h_5 =>
    split at h
    · next hx =>
      subst hx
      cases h
      exact ⟨Token.noConfusion, .inr ⟨rfl, rfl, by simp, by simp⟩⟩
    · cases h
  case h_6 =>
    split at h
    · next hx =>
      subst hx
      cases h
      exact ⟨Token.noConfusion, .inr ⟨rfl, rfl, by simp, by simp⟩⟩
    · cases h
      exact ⟨Token.noConfusion, .inl ⟨rfl, rfl⟩⟩
  all_goals cases h
  all_goals exact ⟨Token.noConfusion, .inl ⟨rfl, rfl⟩⟩

/-- The token behind the cursor is at the cursor when the one before it has been taken. -/
theorem Cursor.current_advance {c : Cursor} (hend : c.current.token ≠ .endOfInput)
    (h : c.following ≠ c.current.token) : c.advance.current.token = c.following := by
  obtain ⟨index, rest⟩ := c
  match rest with
  | [] => exact absurd rfl h
  | [t] => exact absurd rfl h
  | t :: x :: ts =>
    have hne : t.token ≠ .endOfInput := hend
    simp only [Cursor.advance, if_neg hne, Cursor.current, Cursor.following]

theorem accounts_operatorAmong (operators : List BinaryOperator) :
    Accounts w (operatorAmong operators) fun found =>
      w ++ found.toList.flatMap BinaryOperator.tokens := by
  intro s found s' hrun
  unfold operatorAmong at hrun
  rw [bind_of_ok (rfl : peek s = .ok s.cursor.current s),
    bind_of_ok (rfl : peekFollowing s = .ok s.cursor.following s)] at hrun
  cases hspelled : BinaryOperator.ofTokens? s.cursor.current.token s.cursor.following with
  | none =>
    simp only [hspelled] at hrun
    cases hrun
    simp
  | some x =>
    obtain ⟨operator, width⟩ := x
    simp only [hspelled] at hrun
    obtain ⟨hend, hwidth⟩ := ofTokens?_eq_some hspelled
    by_cases hmem : operator ∈ operators
    · rw [if_pos hmem] at hrun
      have hfirst := ParserState.pending_eq rfl hend
      rcases hwidth with ⟨rfl, htokens⟩ | ⟨rfl, htokens, hne, hend'⟩
      · cases hrun
        simp only [Option.toList_some, List.flatMap_singleton, htokens, significant_append]
        rw [hfirst, List.append_assoc]
      · have hcurrent := Cursor.current_advance hend hne
        have hsecond := ParserState.pending_eq (s := { s with cursor := s.cursor.advance })
          hcurrent hend'
        have hboth : significant operator.tokens =
            significant [s.cursor.current.token] ++ significant [s.cursor.following] := by
          rw [htokens]
          exact significant_append [_] [_]
        cases hrun
        simp only [Option.toList_some, List.flatMap_singleton, significant_append, hboth]
        rw [hfirst, hsecond, List.append_assoc, List.append_assoc]
    · rw [if_neg hmem] at hrun
      cases hrun
      simp

/-- The operators behind an operand, each with the operand behind it. -/
def writtenRest (rest : List (BinaryOperator × Node)) : List Token :=
  rest.flatMap fun x => x.1.tokens ++ x.2.written

theorem accounts_chainRest {operators : List BinaryOperator} {operand : Parser Node}
    (hoperand : Accounts [] operand Node.written) {r : Nat} :
    Accounts w (chainRest operators operand r) fun rest => w ++ writtenRest rest := by
  induction r generalizing w with
  | zero =>
    apply Accounts.pure
    simp [writtenRest]
  | succ r ih =>
    unfold chainRest
    refine (accounts_operatorAmong operators).bind fun found => ?_
    cases found with
    | none =>
      apply Accounts.pure
      simp [writtenRest]
    | some operator =>
      refine hoperand.phrase fun right => ?_
      refine ih.bind fun rest => ?_
      apply Accounts.pure
      simp [writtenRest]

theorem significant_writtenOperands (operator : BinaryOperator) (ns : List Node) :
    significant (Node.writtenOperands operator ns) =
      significant (writtenRest (ns.map (operator, ·))) := by
  induction ns with
  | nil => rfl
  | cons n ns ih =>
    rw [Node.writtenOperands, significant_append, ih]
    simp [writtenRest]

/-- A run of operands of one operator. -/
theorem significant_binary (operator : BinaryOperator) (first : Node) (ns : List Node)
    (position : Position) :
    significant (Node.written ⟨.binary operator (first :: ns), position⟩) =
      significant first.written ++ significant (writtenRest (ns.map (operator, ·))) := by
  simp [Node.written, NodeKind.written, Node.writtenChain, significant_writtenOperands]

theorem significant_groupRun (position : Position) (operator : BinaryOperator) (first : Node)
    (run : List Node) (rest : List (BinaryOperator × Node)) :
    significant (OperatorLevel.groupRun position operator (first :: run) rest).written =
      significant first.written ++
        significant (writtenRest (run.map (operator, ·) ++ rest)) := by
  induction rest generalizing operator first run with
  | nil => rw [OperatorLevel.groupRun, significant_binary, List.append_nil]
  | cons x rest ih =>
    obtain ⟨next, operand⟩ := x
    unfold OperatorLevel.groupRun
    split
    · next heq =>
      -- the run goes on
      subst heq
      rw [List.cons_append, ih, List.map_append, List.append_assoc]
      rfl
    · -- the run becomes the first operand of the next one
      rw [ih, significant_binary]
      simp [writtenRest]

theorem significant_groupRight (first : Node) (rest : List (BinaryOperator × Node)) :
    significant (OperatorLevel.groupRight first rest).written =
      significant first.written ++ significant (writtenRest rest) := by
  induction rest generalizing first with
  | nil => simp [OperatorLevel.groupRight, writtenRest]
  | cons x rest ih =>
    obtain ⟨operator, operand⟩ := x
    rw [OperatorLevel.groupRight, significant_binary]
    simp [writtenRest, ih]

/-- Grouping a chain keeps its operands and operators in order. -/
theorem significant_group (level : OperatorLevel) (first : Node)
    (rest : List (BinaryOperator × Node)) :
    significant (level.group first rest).written =
      significant first.written ++ significant (writtenRest rest) := by
  unfold OperatorLevel.group
  split
  · cases rest with
    | nil => simp [OperatorLevel.groupLeft, writtenRest]
    | cons x rest => exact significant_groupRun _ _ _ _ _
  · exact significant_groupRight first rest

theorem accounts_cascade {operand : Parser Node} (hoperand : Accounts [] operand Node.written)
    {r : Nat} (levels : List OperatorLevel) :
    Accounts [] (cascade r operand levels) Node.written := by
  induction levels with
  | nil => exact hoperand
  | cons level levels ih =>
    unfold cascade chain
    refine ih.bind fun first => ?_
    refine (accounts_chainRest ih).bind fun rest => ?_
    apply Accounts.pure
    rw [significant_group, significant_append]

end DrakeSyntax
