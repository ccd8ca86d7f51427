import DrakeSyntax.Grammar.Expression
import DrakeSyntax.Proofs.Agreement

/-!
# Agreement of the productions

Each production agrees with itself when the phrases inside it do (`Inner.Agree`). Lists, trailers
and chains of operators are read in rounds, and every round takes a token, so the number of rounds
allowed does not show as long as there are as many of them as tokens ahead.

* `agree_listFrom`, `agree_twoKindList`: lists, with items of one kind or of two.
* `agree_bracketContents`: bracketed phrases, which go back to their first item.
* `agree_trailers`, `takes_cascade`: operands with trailers, and chains of all levels.
-/

namespace DrakeSyntax

open DrakeSyntax.Parser

variable {w : Walk} {n : Nat} {α β : Type}

/-! ### Lists -/

section Lists

variable {r r' : Nat}

/-- Every round takes an item, so no more rounds are needed than there are tokens ahead. -/
theorem agree_listFrom {item item' : Option α → Parser α}
    (hitem : ∀ last, Takes w n (item last) (item' last)) (separator : Option Separator) (last : α)
    (hr : n ≤ r) (hr' : n ≤ r') :
    Agree w n n (listFrom item r separator last) (listFrom item' r' separator last) := by
  induction n generalizing r r' separator last with
  | zero => exact Agree.zero
  | succ n ih =>
    obtain ⟨r, rfl⟩ : ∃ k, r = k + 1 := ⟨r - 1, by omega⟩
    obtain ⟨r', rfl⟩ : ∃ k, r' = k + 1 := ⟨r' - 1, by omega⟩
    -- one more item, behind either separator
    have hmore (separator : Option Separator) :
        Agree w (n + 1) (n + 1)
          (do let next ← item (some last)
              return (← listFrom item r separator next).cons last)
          (do let next ← item' (some last)
              return (← listFrom item' r' separator next).cons last) := by
      refine (hitem _).agree.bind fun next => ?_
      -- the item took a token, so one round less is enough
      refine Agree.weaken (n := n) (m := n) ?_ (Nat.le_refl _) (Nat.le_succ _)
      refine (ih (fun last => (hitem last).mono (Nat.le_succ _)) _ _ ?_ ?_).bind fun l => .pure _
      · omega
      · omega
    unfold listFrom
    refine (agree_isAt _).bind fun atComma => Agree.ite (fun _ => ?_) fun _ => ?_
    · refine Agree.ite (fun _ => agree_reject _) fun _ => agree_advance.discard.bind fun _ => ?_
      refine (agree_eat _).discard.bind fun _ => ?_
      refine agree_peek.bind fun t => ?_
      exact Agree.ite (fun _ => .pure _) fun _ => hmore _
    · refine (agree_isAt _).bind fun atNewline => Agree.ite (fun _ => ?_) fun _ => .pure _
      refine agree_peekFollowing.bind fun following => Agree.ite (fun _ => ?_) fun _ => ?_
      · exact agree_advance.discard.bind fun _ => .pure _
      · refine Agree.ite (fun _ => agree_advance.discard.bind fun _ => agree_reject _) fun _ => ?_
        refine Agree.ite (fun _ => agree_reject _) fun _ => ?_
        exact agree_advance.discard.bind fun _ => hmore _

theorem agree_listWith {item item' : Option α → Parser α}
    (hitem : ∀ last, Takes w n (item last) (item' last)) (hr : n ≤ r) (hr' : n ≤ r') :
    Agree w n n (listWith r item) (listWith r' item') := by
  refine (agree_eat _).discard.bind fun _ => ?_
  refine agree_peek.bind fun t => ?_
  refine Agree.ite (fun _ => .pure _) fun _ => (hitem none).weak.bind fun first => ?_
  exact agree_listFrom hitem none first hr hr'

theorem agree_list {item item' : Parser α} (hitem : Takes w n item item') (hr : n ≤ r)
    (hr' : n ≤ r') : Agree w n n (list r item) (list r' item') :=
  agree_listWith (fun _ => hitem) hr hr'

theorem agree_listBehind {item item' : Parser α} (first : α) (hitem : Takes w n item item')
    (hr : n ≤ r) (hr' : n ≤ r') :
    Agree w n n (listBehind r first item) (listBehind r' first item') :=
  agree_listFrom (fun _ => hitem) none first hr hr'

/-- A list in parentheses takes the opening one, a single item takes a token itself. -/
theorem agree_delimited {item item' : Parser α} (hitem : Takes w (n + 1) item item') (hr : n ≤ r)
    (hr' : n ≤ r') : Agree w (n + 1) n (delimited r item) (delimited r' item') := by
  refine Agree.eat_bind Token.noConfusion ?_ ?_
  · refine (agree_list (hitem.mono (Nat.le_succ n)) hr hr').bind fun l => ?_
    exact (takes_expect Token.noConfusion).weak.discard.bind fun _ => .pure _
  · exact hitem.agree.bind fun a => .pure _

variable {p p' : Parser α} {q q' : Parser β}

theorem takes_eitherItem (hp : Takes w n p p') (hq : Takes w n q q') (last : Option (α ⊕ β)) :
    Takes w n (eitherItem p q last) (eitherItem p' q' last) := by
  intro m hm
  match last with
  | some (.inr _) => exact (hq m hm).bind fun b => .pure _
  | some (.inl _) | none => exact (hp m hm).longer (hq m hm)

theorem agree_twoKindList (hp : Takes w n p p') (hq : Takes w n q q') (hr : n ≤ r) (hr' : n ≤ r') :
    Agree w n n (twoKindList r p q) (twoKindList r' p' q') :=
  (agree_listWith (takes_eitherItem hp hq) hr hr').bind fun _ => .pure _

theorem agree_twoKindDelimited (hp : Takes w (n + 1) p p') (hq : Takes w (n + 1) q q')
    (hr : n ≤ r) (hr' : n ≤ r') :
    Agree w (n + 1) n (twoKindDelimited r p q) (twoKindDelimited r' p' q') := by
  refine Agree.eat_bind Token.noConfusion ?_ ?_
  · refine (agree_twoKindList (hp.mono (Nat.le_succ n)) (hq.mono (Nat.le_succ n)) hr hr').bind ?_
    exact fun lists => (takes_expect Token.noConfusion).weak.discard.bind fun _ => .pure _
  · exact (hp.agree.longer hq.agree).bind fun item => .pure _

end Lists

/-- The phrases inside agree with at most `n` tokens ahead, and neither side runs out of rounds
before it runs out of tokens. -/
structure Inner.Alike (w : Walk) (n : Nat) (g g' : Inner) : Prop where
  rounds : n ≤ g.rounds
  rounds' : n ≤ g'.rounds
  expression : Takes w n g.expression g'.expression
  unary : Takes w n g.unary g'.unary
  type : Takes w n g.type g'.type

/-- Bracketed phrases made of the phrases inside agree as well, remembered or not. -/
structure Inner.Agree (w : Walk) (n : Nat) (g g' : Inner) : Prop extends g.Alike w n g' where
  bracket : Takes w (n + 1) (Parser.bracket g) (Parser.bracket g')

variable {g g' : Inner}

theorem Inner.Alike.mono {m : Nat} (hg : g.Alike w n g') (hm : m ≤ n) : g.Alike w m g' where
  rounds := Nat.le_trans hm hg.rounds
  rounds' := Nat.le_trans hm hg.rounds'
  expression := hg.expression.mono hm
  unary := hg.unary.mono hm
  type := hg.type.mono hm

theorem Inner.Agree.mono {m : Nat} (hg : g.Agree w n g') (hm : m ≤ n) : g.Agree w m g' where
  toAlike := hg.toAlike.mono hm
  bracket := hg.bracket.mono (Nat.succ_le_succ hm)

/-- A production that takes a token at every depth takes one with fewer tokens ahead. -/
theorem Inner.Agree.takes (hg : g.Agree w n g') {p p' : Parser α}
    (h : ∀ {n}, g.Agree w n g' → DrakeSyntax.Agree w (n + 1) n p p') : Takes w (n + 1) p p' := by
  intro _ hm
  exact h (hg.mono (Nat.le_of_lt_succ hm))

/-! ### Types, parameters and targets -/

theorem agree_typeName (hg : g.Agree w n g') : Agree w (n + 1) n (typeName g) (typeName g') := by
  refine takes_identifier.agree.bind fun (name, position) => ?_
  refine (agree_eat _).bind fun found => Agree.ite (fun _ => ?_) fun _ => .pure _
  refine (agree_list hg.type hg.rounds hg.rounds').bind fun parameters => ?_
  exact (takes_expect Token.noConfusion).weak.discard.bind fun _ => .pure _

theorem agree_typeHint (hg : g.Agree w n g') : Agree w (n + 1) n (typeHint g) (typeHint g') := by
  refine (takes_expect Token.noConfusion).agree.discard.bind fun _ => ?_
  refine ((hg.takes agree_typeName).mono (Nat.le_succ n)).weak.bind fun hint => ?_
  exact (takes_expect Token.noConfusion).weak.discard.bind fun _ => .pure _

theorem agree_declaration (hg : g.Agree w n g') :
    Agree w (n + 1) n (declaration g) (declaration g') := by
  refine agree_peek.bind fun start => ?_
  refine (agree_eat _).bind fun constant => ?_
  refine (agree_typeHint hg).bind fun hint => ?_
  exact takes_identifier.weak.bind fun (name, _) => .pure _

theorem agree_positionalParameter (hg : g.Agree w n g') :
    Agree w (n + 1) n (positionalParameter g) (positionalParameter g') := by
  refine (agree_eat _).bind fun variadic => ?_
  refine (agree_typeHint hg).bind fun hint => ?_
  exact takes_identifier.weak.bind fun (name, _) => .pure _

theorem agree_keywordParameter (hg : g.Agree w n g') :
    Agree w (n + 1) n (keywordParameter g) (keywordParameter g') := by
  refine (agree_eat _).bind fun collector => ?_
  refine (agree_typeHint hg).bind fun hint => ?_
  refine takes_identifier.weak.bind fun (name, _) => Agree.ite (fun _ => .pure _) fun _ => ?_
  refine (agree_eat _).bind fun hasValue => Agree.ite (fun _ => ?_) fun _ => .pure _
  exact hg.expression.weak.bind fun value => .pure _

theorem agree_lambdaHead (hg : g.Agree w n g') :
    Agree w (n + 1) n (lambdaHead g) (lambdaHead g') := by
  refine (agree_twoKindDelimited (hg.takes agree_positionalParameter)
    (hg.takes agree_keywordParameter) hg.rounds hg.rounds').bind fun (positional, keyword) => ?_
  exact (takes_expect Token.noConfusion).weak.discard.bind fun _ => .pure _

theorem agree_lambdaBody (hg : g.Agree w n g') (head : LambdaHead) (position : Position) :
    Agree w n n (lambdaBody g head position) (lambdaBody g' head position) :=
  hg.expression.weak.bind fun _ => .pure _

theorem agree_targetModifier : Agree w n n targetModifier targetModifier := by
  refine (agree_eat _).bind fun isNonlocal => Agree.ite (fun _ => .pure _) fun _ => ?_
  exact (agree_eat _).bind fun isConst => Agree.ite (fun _ => .pure _) fun _ => .pure _

theorem agree_target (hg : g.Agree w n g') : Agree w (n + 1) n (target g) (target g') := by
  refine agree_peek.bind fun start => ?_
  refine agree_targetModifier.bind fun modifier => ?_
  refine (agree_isAt _).bind fun hasHint => Agree.join (fun _ => ?_) (fun _ => .pure none) ?_
  · exact ((agree_typeHint hg).map some).weaken (Nat.le_refl _) (Nat.le_succ n)
  · exact fun hint => takes_identifier.agree.bind fun (name, _) => .pure _

theorem agree_targets (hg : g.Agree w n g') (what : String) :
    Agree w (n + 1) n (targets g what) (targets g' what) := by
  refine (agree_delimited (hg.takes agree_target) hg.rounds hg.rounds').bind fun ts => ?_
  exact Agree.ite (fun _ => agree_failExpecting _) fun _ => .pure _

theorem agree_assignmentHead (hg : g.Agree w n g') :
    Agree w (n + 1) n (assignmentHead g) (assignmentHead g') := by
  refine (agree_targets hg _).bind fun ts => ?_
  refine agree_peek.bind fun operatorToken => ?_
  cases assignmentOperator? operatorToken.token with
  | some operator => exact agree_advance.discard.bind fun _ => .pure _
  | none => exact agree_failExpecting _

theorem agree_assignmentValue (hg : g.Agree w n g') (head : AssignmentHead) (position : Position) :
    Agree w n n (assignmentValue g head position) (assignmentValue g' head position) := by
  refine Agree.ite (fun _ => agree_rejectAt _ _) fun _ => ?_
  refine Agree.ite (fun _ => agree_rejectAt _ _) fun _ => ?_
  exact hg.expression.weak.bind fun value => .pure _

/-! ### Phrases in brackets, braces and parentheses -/

theorem agree_isAtItemEnd : Agree w n n isAtItemEnd isAtItemEnd := by
  refine agree_peek.bind fun t => ?_
  split <;> exact .pure _

theorem agree_bracketItems (position : Position) {items items' : Parser (ItemList Node)}
    (h : Agree w n n items items') :
    Agree w n n (bracketItems position items) (bracketItems position items') := by
  refine h.bind fun _ => ?_
  exact (takes_expect Token.noConfusion).weak.discard.bind fun _ => .pure _

theorem agree_rangeClose (a : α) :
    Agree w n n
      (do discard (eat .newline); discard (expect (.punctuator .rightBracket)); return a)
      (do discard (eat .newline); discard (expect (.punctuator .rightBracket)); return a) := by
  refine (agree_eat _).discard.bind fun _ => ?_
  exact (takes_expect Token.noConfusion).weak.discard.bind fun _ => .pure _

theorem agree_rangeBehind (hg : g.Alike w n g') (start : Node) (position : Position) :
    Agree w n n (rangeBehind g start position) (rangeBehind g' start position) := by
  refine agree_isAtItemEnd.bind fun atEnd =>
    Agree.join (fun _ => .pure none) (fun _ => hg.unary.weak.map some) fun stop => ?_
  refine (agree_eat _).bind fun hasStep => Agree.ite (fun _ => ?_) fun _ => ?_
  · refine (agree_eat _).discard.bind fun _ => (hg.unary.weak.map some).bind fun step => ?_
    exact agree_rangeClose _
  · exact (Agree.pure none).bind fun step => agree_rangeClose _

/-- The place that a bracketed phrase goes back to lies behind its opening bracket. -/
theorem agree_bracketContents (hg : g.Alike w n g') :
    Agree w (n + 1) n (bracketContents g) (bracketContents g') := by
  -- the list, which every way of giving up the range comes back to
  have hlist (position : Position) :
      Agree w n n (bracketItems position (list g.rounds g.expression))
        (bracketItems position (list g'.rounds g'.expression)) :=
    agree_bracketItems position (agree_list hg.expression hg.rounds hg.rounds')
  refine (takes_expect Token.noConfusion).agree.bind fun position => ?_
  refine (agree_eat _).discard.bind fun _ => ?_
  refine Agree.mark_bind fun start hstart hroom => ?_
  refine agree_peek.bind fun t => Agree.ite (fun _ => hlist position) fun _ => ?_
  refine hg.unary.weak.attempt_bind (fun first => ?_) fun e => hlist position
  refine (agree_eat _).bind fun isRange => Agree.ite (fun _ => ?_) fun _ => ?_
  · exact agree_rangeBehind hg first position
  · refine agree_isAtItemEnd.bind fun atEnd => Agree.ite (fun _ => ?_) fun _ => ?_
    · exact agree_bracketItems position (agree_listBehind first hg.expression hg.rounds hg.rounds')
    -- the cursor goes back to where the first item began
    · exact (agree_reset hstart hroom).bind fun _ => hlist position

theorem agree_pair (hg : g.Agree w (n + 1) g') : Agree w (n + 1) n (pair g) (pair g') := by
  refine hg.expression.agree.bind fun key => ?_
  refine (takes_expect Token.noConfusion).weak.discard.bind fun _ => ?_
  exact (hg.expression.mono (Nat.le_succ n)).weak.bind fun value => .pure _

theorem takes_pair (hg : g.Agree w n g') : Takes w n (pair g) (pair g') := by
  intro _ hm
  exact agree_pair (hg.mono hm)

theorem agree_brace (hg : g.Agree w n g') : Agree w (n + 1) n (brace g) (brace g') := by
  refine (takes_expect Token.noConfusion).agree.bind fun position => ?_
  refine (agree_eat _).discard.bind fun _ => ?_
  refine (agree_eat _).bind fun isEmpty => Agree.ite (fun _ => .pure _) fun _ => ?_
  refine hg.expression.weak.bind fun first => ?_
  refine (agree_eat _).bind fun isMapping => Agree.ite (fun _ => ?_) fun _ => ?_
  · refine hg.expression.weak.bind fun value => ?_
    refine (agree_listBehind _ (takes_pair hg) hg.rounds hg.rounds').bind fun pairs => ?_
    exact (takes_expect Token.noConfusion).weak.discard.bind fun _ => .pure _
  · refine (agree_listBehind first hg.expression hg.rounds hg.rounds').bind fun items => ?_
    exact (takes_expect Token.noConfusion).weak.discard.bind fun _ => .pure _

theorem agree_blockItems (hg : g.Agree w n g') :
    Agree w (n + 1) n (blockItems g) (blockItems g') := by
  refine (takes_expect Token.noConfusion).agree.discard.bind fun _ => ?_
  refine (agree_list hg.expression hg.rounds hg.rounds').bind fun items => ?_
  exact (takes_expect Token.noConfusion).weak.discard.bind fun _ => .pure _

theorem agree_block (hg : g.Agree w n g') : Agree w (n + 1) n (block g) (block g') := by
  refine agree_peek.bind fun _ => ?_
  exact (agree_blockItems hg).bind fun _ => .pure _

theorem agree_parenthesized (hg : g.Agree w n g') :
    Agree w (n + 1) n (parenthesized g) (parenthesized g') := by
  refine (takes_expect Token.noConfusion).agree.bind fun position => ?_
  refine (agree_list hg.expression hg.rounds hg.rounds').bind fun items => ?_
  exact (takes_expect Token.noConfusion).weak.discard.bind fun _ => .pure _

theorem agree_paren (hg : g.Agree w n g') : Agree w (n + 1) n (paren g) (paren g') := by
  refine (agree_parenthesized hg).bind fun phrase => ?_
  split <;> exact .pure _

theorem agree_tuple (hg : g.Agree w n g') : Agree w (n + 1) n (tuple g) (tuple g') :=
  (agree_parenthesized hg).bind fun (_, _) => .pure _

/-! ### Operands -/

theorem atomOf?_endOfInput : atomOf? .endOfInput = none := rfl

theorem agree_atom (hg : g.Agree w n g') : Agree w (n + 1) n (atom g) (atom g') := by
  refine Agree.peek_bind fun start => ?_
  split
  · exact (agree_brace hg).at
  · exact hg.bracket.agree.at
  · exact (agree_paren hg).at
  · cases hkind : atomOf? start.token with
    | some kind =>
      -- the end token is no atom, so the cursor does move on
      have hend : start.token ≠ .endOfInput := by
        intro h
        rw [h, atomOf?_endOfInput] at hkind
        cases hkind
      exact AgreeAt.advance_bind hend fun _ => .pure _
    | none => exact (agree_failExpecting _).at

theorem takes_keywordArgument (hg : g.Agree w n g') :
    Takes w n (keywordArgument g) (keywordArgument g') := by
  intro m hm
  refine takes_identifier.agree.bind fun (name, _) => ?_
  refine (takes_expect Token.noConfusion).weak.discard.bind fun _ => ?_
  exact (hg.expression.mono (Nat.le_of_lt hm)).weak.bind fun value => .pure _

theorem agree_trailers (hg : g.Agree w n g') {r r' : Nat} (hr : n ≤ r) (hr' : n ≤ r') :
    Agree w n n (trailers g r) (trailers g' r') := by
  induction n generalizing r r' with
  | zero => exact Agree.zero
  | succ n ih =>
    obtain ⟨r, rfl⟩ : ∃ k, r = k + 1 := ⟨r - 1, by omega⟩
    obtain ⟨r', rfl⟩ : ∃ k, r' = k + 1 := ⟨r' - 1, by omega⟩
    -- one more trailer: a token less for those behind it
    have hmore (t : Trailer) :
        Agree w n (n + 1) (do return t :: (← trailers g r))
          (do return t :: (← trailers g' r')) := by
      refine Agree.weaken (m := n) ?_ (Nat.le_refl n) (Nat.le_succ n)
      refine (ih (hg.mono (Nat.le_succ n)) ?_ ?_).bind fun ts => .pure _
      · omega
      · omega
    unfold trailers
    refine (agree_eat _).bind fun isAttribute => Agree.ite (fun _ => ?_) fun _ => ?_
    · exact takes_identifier.agree.bind fun (name, _) => hmore _
    refine (agree_eat _).bind fun isCall => Agree.ite (fun _ => ?_) fun _ => ?_
    · refine (agree_twoKindList hg.expression (takes_keywordArgument hg) hg.rounds
        hg.rounds').bind fun (positional, keyword) => ?_
      exact (takes_expect Token.noConfusion).agree.discard.bind fun _ => hmore _
    refine (agree_isAt _).bind fun isIndex => Agree.ite (fun _ => ?_) fun _ => .pure _
    exact (hg.bracket.mono (Nat.le_succ _)).agree.bind fun operand => hmore _

theorem agree_primary (hg : g.Agree w n g') : Agree w (n + 1) n (primary g) (primary g') := by
  refine (agree_atom hg).bind fun base => ?_
  refine (agree_trailers hg hg.rounds hg.rounds').bind fun ts => ?_
  cases ts with
  | nil => exact .pure _
  | cons t ts => exact .pure _

theorem unaryOperator?_endOfInput : unaryOperator? .endOfInput = none := rfl

theorem agree_unary (hg : g.Agree w n g') : Agree w (n + 1) n (unary g) (unary g') := by
  refine Agree.peek_bind fun start => ?_
  cases hoperator : unaryOperator? start.token with
  | some operator =>
    -- the end token is no operator, so the cursor does move on
    have hend : start.token ≠ .endOfInput := by
      intro h
      rw [h, unaryOperator?_endOfInput] at hoperator
      cases hoperator
    exact AgreeAt.advance_bind hend fun _ => hg.unary.weak.bind fun operand => .pure _
  | none => exact (agree_primary hg).at

/-! ### Chains of operators -/

theorem agree_advanceBy (k : Nat) : Agree w n n (advanceBy k) (advanceBy k) := by
  induction k with
  | zero => exact .pure _
  | succ k ih => exact agree_advance.discard.bind fun _ => ih

theorem agree_operatorAmong (operators : List BinaryOperator) :
    Agree w n n (operatorAmong operators) (operatorAmong operators) := by
  refine agree_peek.bind fun t => ?_
  refine agree_peekFollowing.bind fun following => ?_
  cases BinaryOperator.ofTokens? t.token following with
  | some found =>
    exact Agree.ite (fun _ => (agree_advanceBy _).bind fun _ => .pure _) fun _ => .pure _
  | none => exact .pure _

theorem agree_chainRest (operators : List BinaryOperator) {operand operand' : Parser Node}
    (hoperand : Takes w n operand operand') {r r' : Nat} (hr : n ≤ r) (hr' : n ≤ r') :
    Agree w n n (chainRest operators operand r) (chainRest operators operand' r') := by
  induction n generalizing r r' with
  | zero => exact Agree.zero
  | succ n ih =>
    obtain ⟨r, rfl⟩ : ∃ k, r = k + 1 := ⟨r - 1, by omega⟩
    obtain ⟨r', rfl⟩ : ∃ k, r' = k + 1 := ⟨r' - 1, by omega⟩
    unfold chainRest
    refine (agree_operatorAmong operators).bind fun found => ?_
    cases found with
    | none => exact .pure _
    | some operator =>
      refine hoperand.agree.bind fun right => ?_
      -- the operand took a token, so one round less is enough
      refine Agree.weaken (m := n) ?_ (Nat.le_refl n) (Nat.le_succ n)
      refine (ih (hoperand.mono (Nat.le_succ n)) ?_ ?_).bind fun rest => .pure _
      · omega
      · omega

/-- A chain takes the tokens of its first operand at least. -/
theorem takes_chain (level : OperatorLevel) {operand operand' : Parser Node}
    (hoperand : Takes w (n + 1) operand operand') {r r' : Nat} (hr : n ≤ r) (hr' : n ≤ r') :
    Takes w (n + 1) (chain r level operand) (chain r' level operand') := by
  intro m hm
  refine (hoperand m hm).bind fun first => ?_
  have hm' : m ≤ n := Nat.le_of_lt_succ hm
  exact (agree_chainRest level.operators (hoperand.mono (by omega)) (Nat.le_trans hm' hr)
    (Nat.le_trans hm' hr')).bind fun rest => .pure _

theorem takes_cascade (levels : List OperatorLevel) {operand operand' : Parser Node}
    (hoperand : Takes w (n + 1) operand operand') {r r' : Nat} (hr : n ≤ r) (hr' : n ≤ r') :
    Takes w (n + 1) (cascade r operand levels) (cascade r' operand' levels) := by
  induction levels with
  | nil => exact hoperand
  | cons level levels ih => exact takes_chain level ih hr hr'

end DrakeSyntax
