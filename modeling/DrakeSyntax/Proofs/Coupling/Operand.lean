import DrakeSyntax.Proofs.Account.Operand
import DrakeSyntax.Proofs.Coupling.Phrase

/-!
# Operands and chains side by side

Atoms, operands and chains of operators come to outcomes that belong together when the phrases
inside them do. Chains are grouped without a look at positions (`OperatorLevel.group_relocate`).

* `matches_trailers`, `matches_unary`: operands with trailers.
* `matches_cascade`: chains of all levels.
-/

namespace DrakeSyntax

open DrakeSyntax.Parser
open Coupling

variable {K : Coupling} {k : List Token} {g : Inner}

/-! ### Atoms and operands -/

theorem atomOf?_eq_none_of_halts {t : Token} (h : t.halts) : atomOf? t = none := by
  rcases Token.halts_cases h with rfl | rfl | rfl | rfl | rfl | rfl | rfl <;> rfl

theorem isPlain_of_atomOf? {t : Token} {kind : NodeKind} (h : atomOf? t = some kind) :
    t.isPlain := by
  unfold atomOf? at h
  split at h
  all_goals first
    | rfl
    | cases h

theorem atom_of_halts {t : PlacedToken} (ht : t.token.halts) : Stalls (
    match t.token with
    | .punctuator .leftBrace => brace g
    | .punctuator .leftBracket => bracket g
    | .punctuator .leftParen => paren g
    | u =>
      match atomOf? u with
      | some kind => do
        discard advance
        return ⟨kind, t.position⟩
      | none => failExpecting ["expression"]) := by
  split
  · next h => rw [h] at ht; cases ht
  · next h => rw [h] at ht; cases ht
  · next h => rw [h] at ht; cases ht
  · rw [atomOf?_eq_none_of_halts ht]
    exact Stalls.failExpecting _

theorem stalls_atom : Stalls (atom g) := Stalls.peek_bind fun _ => atom_of_halts

theorem matches_atom (hg : g.Steady K) :
    K.Matches k k (K.Views Node.relocate) (atom g) (atom g) := by
  refine Matches.peek_bind (.inr fun t ht => ⟨atom_of_halts ht, atom_of_halts ht⟩) ?_
  intro start start' hstart
  rw [← hstart.token]
  split
  · exact (matches_brace hg).on
  · exact (matches_bracket hg).on
  · exact (matches_paren hg).on
  · cases hkind : atomOf? start.token with
    | some kind =>
      have hshift := Token.shift_of_isPlain (isPlain_of_atomOf? hkind) k
      refine MatchesOn.discard_advance_bind hshift (.pure ?_)
      simp only [Views, Node.relocate, hstart.position]
    | none => exact (matches_failExpecting (by decide)).on

theorem matches_keywordArgument (hexact : K.Exact k) (hg : g.Steady K) :
    K.Matches k k (K.Views KeywordArgument.relocate) (keywordArgument g) (keywordArgument g) := by
  refine matches_identifier.bind ?_
  rintro ⟨name, _⟩ ⟨_, _⟩ ⟨rfl, -⟩
  refine (matches_expect (.inl hexact) rfl rfl).discard_bind ?_
  refine (hg.expression k).bind fun value value' hvalue => .pure ?_
  simp only [Views, KeywordArgument.relocate, hvalue]

theorem matches_trailers (hg : g.Steady K) (r : Nat) :
    K.Matches k k (List.Forall₂ (K.Views Trailer.relocate)) (trailers g r) (trailers g r) := by
  induction r with
  | zero => exact .pure .nil
  | succ r ih =>
    -- one more trailer in front of those behind it
    have hmore {t t' : Trailer} (ht : K.Views Trailer.relocate t t') :
        K.Matches k k (List.Forall₂ (K.Views Trailer.relocate))
          (do return t :: (← trailers g r)) (do return t' :: (← trailers g r)) :=
      ih.bind fun ts ts' hts => .pure (.cons ht hts)
    unfold trailers
    refine Matches.eat_ite (.inr rfl) rfl ?_ ?_
    · refine matches_identifier.bind ?_
      rintro ⟨name, _⟩ ⟨_, _⟩ ⟨rfl, -⟩
      exact hmore rfl
    refine Matches.eat_ite (.inr rfl) rfl ?_ ?_
    · refine (matches_twoKindList exact_cons (hg.expression _)
        (matches_keywordArgument exact_cons hg)
        g.rounds).bind ?_
      rintro ⟨positional, keyword⟩ ⟨positional', keyword'⟩ ⟨hpositional, hkeyword⟩
      refine (matches_expect (.inl exact_cons) rfl rfl).discard_bind (hmore ?_)
      simp only [Views, Trailer.relocate, Node.relocateAll_eq_map,
        KeywordArgument.relocateAll_eq_map, map_eq_of_forall₂ hpositional,
        map_eq_of_forall₂ hkeyword]
    refine Matches.isAt_ite (.inr rfl) (Matches.on ?_) (.pure .nil)
    refine (matches_bracket hg).bind fun operand operand' hoperand => hmore ?_
    simp only [Views, Trailer.relocate, hoperand]

theorem matches_primary (hg : g.Steady K) :
    K.Matches k k (K.Views Node.relocate) (primary g) (primary g) := by
  refine (matches_atom hg).bind fun base base' hbase => ?_
  refine (matches_trailers hg g.rounds).bind fun ts ts' hts => ?_
  cases hts with
  | nil => exact .pure hbase
  | cons ht hts =>
    refine .pure ?_
    have hposition : K.Near base.position base'.position := by
      obtain ⟨kind, position⟩ := base
      obtain ⟨kind', position'⟩ := base'
      simp only [Views, Node.relocate, Node.mk.injEq] at hbase
      exact hbase.2
    simp only [Views, Node.relocate, NodeKind.relocate, Trailer.relocateAll_eq_map, hbase,
      map_eq_of_forall₂ (.cons ht hts), hposition]

theorem unaryOperator?_of_halts {t : Token} (h : t.halts) : unaryOperator? t = none := by
  rcases Token.halts_cases h with rfl | rfl | rfl | rfl | rfl | rfl | rfl <;> rfl

theorem isPlain_of_unaryOperator? {t : Token} {operator : UnaryOperator}
    (h : unaryOperator? t = some operator) : t.isPlain := by
  unfold unaryOperator? at h
  split at h
  all_goals first
    | rfl
    | cases h

theorem unary_of_halts {t : PlacedToken} (ht : t.token.halts) : Stalls (
    match unaryOperator? t.token with
    | some operator => do
      discard advance
      return ⟨.unary operator (← g.unary), t.position⟩
    | none => primary g) := by
  rw [unaryOperator?_of_halts ht]
  exact stalls_atom.bind

theorem stalls_unary : Stalls (unary g) := Stalls.peek_bind fun _ => unary_of_halts

theorem matches_unary (hg : g.Steady K) :
    K.Matches k k (K.Views Node.relocate) (unary g) (unary g) := by
  refine Matches.peek_bind (.inr fun t ht => ⟨unary_of_halts ht, unary_of_halts ht⟩) ?_
  intro start start' hstart
  rw [← hstart.token]
  cases hoperator : unaryOperator? start.token with
  | some operator =>
    have hshift := Token.shift_of_isPlain (isPlain_of_unaryOperator? hoperator) k
    refine MatchesOn.discard_advance_bind hshift ?_
    refine (hg.unary k).bind fun operand operand' hoperand => .pure ?_
    simp only [Views, Node.relocate, NodeKind.relocate, hoperand, hstart.position]
  | none => exact (matches_primary hg).on

/-! ### Chains of operators -/

namespace OperatorLevel

variable {f : Position → Position}

theorem groupRun_relocate (position : Position) (operator : BinaryOperator) (run : List Node)
    (rest : List (BinaryOperator × Node)) :
    (groupRun position operator run rest).relocate f =
      groupRun (f position) operator (run.map (Node.relocate f))
        (rest.map (Prod.map id (Node.relocate f))) := by
  induction rest generalizing operator run with
  | nil => simp only [groupRun, Node.relocate, NodeKind.relocate, Node.relocateAll_eq_map, List.map_nil]
  | cons next rest ih =>
    obtain ⟨next, operand⟩ := next
    simp only [groupRun, List.map_cons, Prod.map_apply, id]
    split
    · rw [ih, List.map_append, List.map_singleton]
    · rw [ih]
      simp only [List.map_cons, List.map_nil, Node.relocate, NodeKind.relocate,
        Node.relocateAll_eq_map]

theorem relocate_position (n : Node) : (n.relocate f).position = f n.position := by
  obtain ⟨kind, position⟩ := n
  rfl

theorem groupRight_relocate (first : Node) (rest : List (BinaryOperator × Node)) :
    (groupRight first rest).relocate f =
      groupRight (first.relocate f) (rest.map (Prod.map id (Node.relocate f))) := by
  induction rest generalizing first with
  | nil => rfl
  | cons next rest ih =>
    obtain ⟨operator, operand⟩ := next
    simp only [groupRight, List.map_cons, Prod.map_apply, id, Node.relocate, NodeKind.relocate,
      Node.relocateAll, ih, relocate_position]

/-- **Chains are grouped without a look at positions.** -/
theorem group_relocate (level : OperatorLevel) (first : Node) (rest : List (BinaryOperator × Node)) :
    (level.group first rest).relocate f =
      level.group (first.relocate f) (rest.map (Prod.map id (Node.relocate f))) := by
  unfold group
  cases level.associativity with
  | right => exact groupRight_relocate first rest
  | left =>
    cases rest with
    | nil => rfl
    | cons next rest =>
      obtain ⟨operator, operand⟩ := next
      simp only [groupLeft, groupRun_relocate, List.map_cons, List.map_nil, Prod.map_apply, id,
        relocate_position]

end OperatorLevel

/-- Where an item or a key ends no operator stands. -/
theorem ofTokens?_of_halts {t u : Token} (h : t.halts) :
    BinaryOperator.ofTokens? t u = none := by
  rcases Token.halts_cases h with rfl | rfl | rfl | rfl | rfl | rfl | rfl <;> rfl

/-- Tokens that end items or keys are no second tokens of operators. -/
theorem ofTokens?_congr {t u u' : Token} (h : u = u' ∨ u.halts ∧ u'.halts) :
    BinaryOperator.ofTokens? t u = BinaryOperator.ofTokens? t u' := by
  rcases h with rfl | ⟨hu, hu'⟩
  · rfl
  · have hne {x : Token} (hx : x.halts) {w : Keyword} : x ≠ .keyword w := by
      rintro rfl
      cases hx
    unfold BinaryOperator.ofTokens?
    split
    all_goals first
      | rfl
      | rw [if_neg (hne hu), if_neg (hne hu')]

/-- The second token of an operator is a keyword. -/
theorem width_of_ofTokens? {t u : Token} {operator : BinaryOperator} {width : Nat}
    (h : BinaryOperator.ofTokens? t u = some (operator, width)) :
    width = 1 ∨ width = 2 ∧ ∃ w, u = .keyword w := by
  unfold BinaryOperator.ofTokens? at h
  split at h
  -- operators with a second token
  case h_5 =>
    split at h
    · next hu =>
      cases h
      exact .inr ⟨rfl, _, hu⟩
    · cases h
  case h_6 =>
    split at h
    · next hu =>
      cases h
      exact .inr ⟨rfl, _, hu⟩
    · cases h
      exact .inl rfl
  all_goals cases h
  all_goals exact .inl rfl

theorem isPlain_of_ofTokens? {t u : Token} {operator : BinaryOperator} {width : Nat}
    (h : BinaryOperator.ofTokens? t u = some (operator, width)) : t.isPlain := by
  unfold BinaryOperator.ofTokens? at h
  split at h
  all_goals first
    | rfl
    | cases h

/-- Both runs take as many tokens for an operator. -/
theorem rel_advanceBy {s s' : ParserState} {operator : BinaryOperator} {width : Nat}
    (hrel : K.rel k s.cursor s'.cursor)
    (h : BinaryOperator.ofTokens? s.cursor.current.token s.cursor.following =
      some (operator, width)) :
    ∃ r r', advanceBy width s = .ok () r ∧ advanceBy width s' = .ok () r' ∧
      K.rel k r.cursor r'.cursor := by
  have hplain := isPlain_of_ofTokens? h
  have hstop : ¬K.stopped s.cursor s'.cursor := by
    intro hstop
    rw [ofTokens?_of_halts (K.halts hstop).1.token] at h
    cases h
  have hfirst := K.step hrel hstop (Token.shift_of_isPlain hplain k)
  rcases width_of_ofTokens? h with rfl | ⟨rfl, w, hw⟩
  · exact ⟨_, _, rfl, rfl, hfirst⟩
  · -- the second token is a keyword, so the runs do not stop in front of it
    have hsecond : s.cursor.advance.current.token = .keyword w := by
      rw [← hw, (K.ended hrel).1.following_eq (Token.ne_endOfInput_of_isPlain hplain)]
    refine ⟨_, _, rfl, rfl, K.step hfirst (not_stopped (by rw [hsecond]; rfl)) ?_⟩
    rw [hsecond]
    rfl

theorem matches_operatorAmong (operators : List BinaryOperator) :
    K.Matches k k (· = ·) (operatorAmong operators) (operatorAmong operators) := by
  intro s s' hrel
  have heq : BinaryOperator.ofTokens? s.cursor.current.token s.cursor.following =
      BinaryOperator.ofTokens? s'.cursor.current.token s'.cursor.following := by
    by_cases hstop : K.stopped s.cursor s'.cursor
    · obtain ⟨hhalts, hhalts'⟩ := K.halts hstop
      rw [ofTokens?_of_halts hhalts.token, ofTokens?_of_halts hhalts'.token]
    · rw [← K.token hrel hstop]
      by_cases hplain : s.cursor.current.token.isPlain
      · exact ofTokens?_congr (following_eq_or hrel hstop hplain)
      -- a bracket is no operator, whatever follows
      · have hnone (u : Token) : BinaryOperator.ofTokens? s.cursor.current.token u = none := by
          cases hu : BinaryOperator.ofTokens? s.cursor.current.token u with
          | none => rfl
          | some found => exact absurd (isPlain_of_ofTokens? hu) hplain
        rw [hnone, hnone]
  unfold operatorAmong
  rw [bind_of_ok (rfl : peek s = .ok s.cursor.current s),
    bind_of_ok (rfl : peekFollowing s = .ok s.cursor.following s),
    bind_of_ok (rfl : peek s' = .ok s'.cursor.current s'),
    bind_of_ok (rfl : peekFollowing s' = .ok s'.cursor.following s'), ← heq]
  cases hfound : BinaryOperator.ofTokens? s.cursor.current.token s.cursor.following with
  | none => exact .ok hrel rfl
  | some found =>
    obtain ⟨operator, width⟩ := found
    simp only
    split
    · obtain ⟨r, r', hr, hr', hrel'⟩ := rel_advanceBy hrel hfound
      rw [bind_of_ok hr, bind_of_ok hr']
      exact .ok hrel' rfl
    · exact .ok hrel rfl

/-- Operators with the operands behind them belong together. -/
def Coupling.RestMatches (K : Coupling) (a b : BinaryOperator × Node) : Prop :=
  Prod.map id (Node.relocate K.view) a = Prod.map id (Node.relocate K.view) b

theorem matches_chainRest (operators : List BinaryOperator) {operand : Parser Node}
    (hoperand : K.Matches k k (K.Views Node.relocate) operand operand) (r : Nat) :
    K.Matches k k (List.Forall₂ K.RestMatches) (chainRest operators operand r)
      (chainRest operators operand r) := by
  induction r with
  | zero => exact .pure .nil
  | succ r ih =>
    unfold chainRest
    refine (matches_operatorAmong operators).bind ?_
    rintro found _ rfl
    cases found with
    | none => exact .pure .nil
    | some operator =>
      refine hoperand.bind fun right right' hright => ?_
      refine ih.bind fun rest rest' hrest => .pure (.cons ?_ hrest)
      simp only [RestMatches, Prod.map_apply, hright]

theorem matches_chain (level : OperatorLevel) {operand : Parser Node}
    (hoperand : K.Matches k k (K.Views Node.relocate) operand operand) (r : Nat) :
    K.Matches k k (K.Views Node.relocate) (chain r level operand) (chain r level operand) := by
  refine hoperand.bind fun first first' hfirst => ?_
  refine (matches_chainRest level.operators hoperand r).bind fun rest rest' hrest => .pure ?_
  simp only [Views, OperatorLevel.group_relocate, hfirst, map_eq_of_forall₂ hrest]

theorem matches_cascade (levels : List OperatorLevel) {operand : Parser Node}
    (hoperand : K.Matches k k (K.Views Node.relocate) operand operand) (r : Nat) :
    K.Matches k k (K.Views Node.relocate) (cascade r operand levels)
      (cascade r operand levels) := by
  induction levels with
  | nil => exact hoperand
  | cons level levels ih => exact matches_chain level ih r

theorem stalls_cascade (levels : List OperatorLevel) {operand : Parser Node}
    (hoperand : Stalls operand) (r : Nat) : Stalls (cascade r operand levels) := by
  induction levels with
  | nil => exact hoperand
  | cons level levels ih => exact ih.bind

end DrakeSyntax
