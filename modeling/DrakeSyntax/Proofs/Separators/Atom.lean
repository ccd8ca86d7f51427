import DrakeSyntax.Proofs.Runs.Head
import DrakeSyntax.Proofs.Separators

/-!
# What stands behind an atom

A lambda that begins with a parenthesis has its arrow behind the matching one. An assignment that
begins with a parenthesis or a name has its operator behind the matching one or behind the name. So
where anything else stands behind such an atom, no head can be read (`headless_of_beginsWithAtom`),
and what is an operand up to the end of an item is an expression (`expressionWith_of_unary`).

* `Enclosed`: balanced tokens up to a closing one.
* `BeginsWithAtom`: the tokens behind a name or behind a phrase in parentheses are unique.
-/

namespace DrakeSyntax

open DrakeSyntax.Parser

/-- The tokens `us` are balanced up to a closing token, and `vs` are behind that. -/
def Enclosed (us vs : List Token) : Prop :=
  ∃ inner close, us = inner ++ close :: vs ∧ Balanced inner ∧ close.closesList

/-- The tokens `us` begin with a name or with a phrase in parentheses, and `vs` are behind that. -/
inductive BeginsWithAtom : (us vs : List Token) → Prop
  | name (name : String) (vs : List Token) : BeginsWithAtom (.identifier name :: vs) vs
  | parens {us vs : List Token} (inside : Enclosed us vs) :
    BeginsWithAtom (.punctuator .leftParen :: us) vs

/-- Whether the token can stand behind the parameters of a lambda or the targets of an assignment. -/
def Token.followsHead (t : Token) : Bool :=
  t == .punctuator .arrow || (assignmentOperator? t).isSome

variable {us vs ws : List Token} {t u : Token}

theorem Enclosed.unique (h : Enclosed us vs) (h' : Enclosed us ws) : vs = ws := by
  obtain ⟨inner, close, rfl, hinner, hclose⟩ := h
  obtain ⟨inner', close', heq, hinner', hclose'⟩ := h'
  obtain rfl := hinner.unique hinner' hclose hclose' heq
  exact (List.cons.inj (List.append_cancel_left heq)).2

theorem BeginsWithAtom.unique (h : BeginsWithAtom us vs) (h' : BeginsWithAtom us ws) : vs = ws := by
  cases h with
  | name name vs =>
    cases h' with
    | name => rfl
  | parens inside =>
    cases h' with
    | parens inside' => exact inside.unique inside'

theorem Token.followsHead_of_assignmentOperator? {operator : AssignmentOperator}
    (h : assignmentOperator? t = some operator) : t.followsHead := by
  simp [followsHead, h]

theorem Token.opensTrailer_of_followsHead (h : t.followsHead) : t.opensTrailer = false := by
  unfold opensTrailer
  split
  · cases h
  · cases h
  · cases h
  · rfl

/-! ### Phrases in parentheses -/

section Parentheses

variable {α β : Type} {V : α → α → Prop} {body : Parser α} {f : α → β} {b : β}
variable {s s' : ParserState} {g : Inner}

theorem ended_iff : s.cursor.Ended ↔ .endOfInput ∈ s.tokens := by
  simp [Cursor.Ended, ParserState.tokens]

theorem tokens_of_current (h : s.cursor.current.token = t) (ht : t ≠ .endOfInput) :
    s.tokens = t :: ParserState.tokens { s with cursor := s.cursor.advance } := by
  obtain ⟨⟨index, rest⟩, brackets⟩ := s
  cases rest with
  | nil => exact absurd h.symm ht
  | cons u us =>
    obtain rfl : u.token = t := h
    rw [(ParserState.advance_of_tokens (l := us.map (·.token)) rfl ht).1]
    rfl

theorem tokens_of_expect {position : Position} (h : expect t s = .ok position s')
    (ht : t ≠ .endOfInput) : s.tokens = t :: s'.tokens := by
  by_cases hat : s.cursor.current.token = t
  · rw [expect_of_eq hat] at h
    cases h
    exact tokens_of_current hat ht
  · rw [expect_of_ne hat] at h
    cases h

/-- What is read up to a closing parenthesis is balanced. -/
theorem enclosed_of_body (hend : .endOfInput ∈ s.tokens)
    (hbody : (Coupling.diagonal s.cursor []).Matches [] [] V body body)
    (h : (do
      let a ← body
      discard (expect (.punctuator .rightParen))
      return f a : Parser β) s = .ok b s') : Enclosed s.tokens s'.tokens := by
  obtain ⟨a, s₁, ha, h⟩ := bind_eq_ok h
  rw [discard_bind] at h
  obtain ⟨position, s₂, hclose, h⟩ := bind_eq_ok h
  cases h
  have hpasses := hbody.passes (ended_iff.2 hend)
  rw [ha] at hpasses
  obtain ⟨us, hus, -, hshift⟩ := hpasses.passed
  have hbalanced : Balanced (us.map (·.token)) := hshift
  refine ⟨_, .punctuator .rightParen, ?_, hbalanced, rfl⟩
  rw [← tokens_of_expect hclose (by simp), ParserState.tokens, ParserState.tokens, hus,
    List.map_append]

theorem enclosed_of_delimited {item : Parser α} {r : Nat} {as : List α}
    (hs : s.tokens = .punctuator .leftParen :: us) (hend : .endOfInput ∈ us)
    (hitem : (Coupling.diagonal s.cursor.advance []).Matches [] [] V item item)
    (h : delimited r item s = .ok as s') : Enclosed us s'.tokens := by
  obtain ⟨htokens, -⟩ := ParserState.advance_of_tokens hs (by simp)
  unfold delimited at h
  rw [bind_of_ok (eat_of_eq (ParserState.current_of_tokens hs))] at h
  rw [← htokens] at hend ⊢
  exact enclosed_of_body hend (Coupling.matches_list (fun _ _ _ => id) hitem r) h

theorem enclosed_of_twoKindDelimited {W : β → β → Prop} {p : Parser α} {q : Parser β} {r : Nat}
    {lists : List α × List β} (hs : s.tokens = .punctuator .leftParen :: us)
    (hend : .endOfInput ∈ us)
    (hp : (Coupling.diagonal s.cursor.advance []).Matches [] [] V p p)
    (hq : (Coupling.diagonal s.cursor.advance []).Matches [] [] W q q)
    (h : twoKindDelimited r p q s = .ok lists s') : Enclosed us s'.tokens := by
  obtain ⟨htokens, -⟩ := ParserState.advance_of_tokens hs (by simp)
  unfold twoKindDelimited at h
  rw [bind_of_ok (eat_of_eq (ParserState.current_of_tokens hs))] at h
  rw [← htokens] at hend ⊢
  exact enclosed_of_body hend (Coupling.matches_twoKindList (fun _ _ _ => id) hp hq r) h

theorem enclosed_of_parenthesized {list : ItemList Node × Position} (hg : g.SteadyAlone)
    (hs : s.tokens = .punctuator .leftParen :: us) (hend : .endOfInput ∈ us)
    (h : parenthesized g s = .ok list s') : Enclosed us s'.tokens := by
  obtain ⟨htokens, -⟩ := ParserState.advance_of_tokens hs (by simp)
  unfold parenthesized at h
  rw [bind_of_ok (expect_of_eq (ParserState.current_of_tokens hs))] at h
  rw [← htokens] at hend ⊢
  exact enclosed_of_body hend (Coupling.matches_list (fun _ _ _ => id) ((hg _ _).expression _) _) h

end Parentheses

/-- What a list in parentheses stands for: a single expression without a comma behind it stands for
itself. -/
def ItemList.grouped : ItemList Node → Position → Node
  | ⟨[item], false⟩, _ => item
  | ⟨items, _⟩, position => ⟨.tuple items, position⟩

theorem paren_eq (g : Inner) : paren g = do
    let (items, position) ← parenthesized g
    return items.grouped position := by
  unfold paren
  refine congrArg (parenthesized g >>= ·) (funext ?_)
  rintro ⟨⟨items, trailingComma⟩, position⟩
  match items, trailingComma with
  | [], _ => rfl
  | [_], false => rfl
  | [_], true => rfl
  | _ :: _ :: _, _ => rfl

/-! ### Heads and operands -/

section Heads

variable {s s' : ParserState} {g : Inner}

/-- The arrow of a lambda stands behind the matching parenthesis. -/
theorem beginsWithAtom_of_lambdaHead {head : LambdaHead} (hg : g.SteadyAlone)
    (hs : s.tokens = .punctuator .leftParen :: us) (hend : .endOfInput ∈ us)
    (h : lambdaHead g s = .ok head s') :
    ∃ u vs, BeginsWithAtom s.tokens (u :: vs) ∧ u.followsHead := by
  obtain ⟨⟨positional, keyword⟩, s₁, hlists, h⟩ := bind_eq_ok h
  simp only [discard_bind] at h
  obtain ⟨position, s₂, harrow, -⟩ := bind_eq_ok h
  have henclosed := enclosed_of_twoKindDelimited hs hend
    (matches_positionalParameter (hg _ _)) (matches_keywordParameter (fun _ _ _ => id) (hg _ _)) hlists
  rw [hs]
  rw [tokens_of_expect harrow (by simp)] at henclosed
  exact ⟨_, _, .parens henclosed, rfl⟩

theorem reads_delimited_name (name : String) (r : Nat) :
    Reads (delimited r (target g)) (.identifier name :: us) us fun _ => True := by
  refine Runs.eat_bind_ne (by simp) (Runs.ite_false ?_)
  exact (reads_target_name name).bind fun _ _ => ReadsOr.pure trivial

/-- An assignment has its operator behind its targets. -/
theorem followsHead_of_assignmentHead {head : AssignmentHead}
    (h : assignmentHead g s = .ok head s') :
    ∃ ts s₁, delimited g.rounds (target g) s = .ok ts s₁ ∧
      s₁.cursor.current.token.followsHead := by
  obtain ⟨ts, s₁, htargets, h⟩ := bind_eq_ok h
  obtain ⟨ts', s₂, hdelimited, htargets⟩ := bind_eq_ok htargets
  obtain rfl : s₂ = s₁ := by
    cases hempty : ts'.isEmpty with
    | true =>
      rw [hempty] at htargets
      cases htargets
    | false =>
      rw [hempty] at htargets
      cases htargets
      rfl
  refine ⟨ts', s₂, hdelimited, ?_⟩
  rw [bind_of_ok (rfl : peek s₂ = .ok s₂.cursor.current s₂)] at h
  cases hoperator : assignmentOperator? s₂.cursor.current.token with
  | some operator => exact Token.followsHead_of_assignmentOperator? hoperator
  | none =>
    rw [hoperator] at h
    cases h

/-- The operator of an assignment stands behind the matching parenthesis or the name. -/
theorem beginsWithAtom_of_assignmentHead {head : AssignmentHead} (hg : g.SteadyAlone)
    (hs : s.tokens = t :: us) (ht : t = .punctuator .leftParen ∨ ∃ name, t = .identifier name)
    (hend : .endOfInput ∈ us) (h : assignmentHead g s = .ok head s') :
    ∃ u vs, BeginsWithAtom s.tokens (u :: vs) ∧ u.followsHead := by
  obtain ⟨ts, s₁, hdelimited, hfollows⟩ := followsHead_of_assignmentHead h
  have hatom : BeginsWithAtom s.tokens s₁.tokens := by
    rw [hs]
    obtain rfl | ⟨name, rfl⟩ := ht
    · exact .parens (enclosed_of_delimited hs hend (matches_target (hg _ _)) hdelimited)
    · have hrun := reads_delimited_name (g := g) name g.rounds s hs
      rw [hdelimited] at hrun
      rw [hrun.2.1]
      exact .name name us
  rw [tokens_of_current rfl (Token.ne_of_apply hfollows rfl)] at hatom
  exact ⟨_, _, hatom, hfollows⟩

theorem beginsWithAtom_of_atom {node : Node} (hg : g.SteadyAlone)
    (hs : s.tokens = t :: us) (ht : t = .punctuator .leftParen ∨ ∃ name, t = .identifier name)
    (hend : .endOfInput ∈ us) (h : atom g s = .ok node s') : BeginsWithAtom s.tokens s'.tokens := by
  rw [hs]
  obtain rfl | ⟨name, rfl⟩ := ht
  · have hparen : atom g s = paren g s := by
      unfold atom
      rw [bind_of_ok (rfl : peek s = .ok s.cursor.current s), ParserState.current_of_tokens hs]
    rw [hparen, paren_eq] at h
    obtain ⟨⟨items, position⟩, s₁, hlist, h⟩ := bind_eq_ok h
    cases h
    exact .parens (enclosed_of_parenthesized hg hs hend hlist)
  · have hrun := reads_atom_token (g := g) (t := .identifier name) rfl .start s hs
    rw [h] at hrun
    rw [hrun.2.1]
    exact .name name us

theorem eq_leftParen_of_startsLambda (ht : t.opensOperand) (h : startsLambda t) :
    t = .punctuator .leftParen := by
  unfold startsLambda at h
  split at h
  · rfl
  · cases ht
  · cases ht
  · cases ht
  · cases h

theorem leftParen_or_name_of_startsTarget (ht : t.opensOperand) (h : startsTarget t) :
    t = .punctuator .leftParen ∨ ∃ name, t = .identifier name := by
  unfold startsTarget at h
  split at h
  · exact .inl rfl
  · cases ht
  · exact .inr ⟨_, rfl⟩
  · cases ht
  · cases ht
  · cases h

/-- **Where nothing that follows a head stands behind the atom, no head can be read.** -/
theorem headless_of_beginsWithAtom (hg : g.SteadyAlone) (ht : t.opensOperand)
    (hend : .endOfInput ∈ us)
    (h : ∀ u vs, BeginsWithAtom (t :: us) (u :: vs) → u.followsHead = false) :
    Headless g (t :: us) where
  lambda hstarts s hs := by
    obtain rfl := eq_leftParen_of_startsLambda ht hstarts
    cases hrun : lambdaHead g s with
    | error e s' => trivial
    | ok head s' =>
      obtain ⟨u, vs, hatom, hfollows⟩ := beginsWithAtom_of_lambdaHead hg hs hend hrun
      rw [hs] at hatom
      rw [h u vs hatom] at hfollows
      cases hfollows
  assignment hstarts s hs := by
    have hstart := leftParen_or_name_of_startsTarget ht hstarts
    cases hrun : assignmentHead g s with
    | error e s' => trivial
    | ok head s' =>
      obtain ⟨u, vs, hatom, hfollows⟩ := beginsWithAtom_of_assignmentHead hg hs hstart hend hrun
      rw [hs] at hatom
      rw [h u vs hatom] at hfollows
      cases hfollows

theorem attemptIf_of_fails {α : Type} {p : Parser α} {condition : Bool}
    (h : condition = true → Fails p s.tokens) :
    ∃ s', s'.cursor = s.cursor ∧ attemptIf condition p s = .ok none s' := by
  cases condition with
  | false => exact ⟨s, rfl, rfl⟩
  | true =>
    have hfails := h rfl s rfl
    cases hp : p s with
    | ok a s' =>
      rw [hp] at hfails
      exact hfails.2.elim
    | error e s' =>
      refine ⟨{ s' with cursor := s.cursor }, rfl, ?_⟩
      rw [attemptIf, if_pos rfl, bind_of_ok (attempt_of_error hp)]
      rfl

/-- What begins with an operand and has no head is read as operands with operators between them. -/
theorem expressionWith_run (hs : s.tokens = t :: us) (ht : t.opensOperand)
    (hhead : Headless g (t :: us)) :
    ∃ s', s'.cursor = s.cursor ∧
      expressionWith g s = cascade g.rounds (unary g) OperatorLevel.all s' := by
  obtain rfl := ParserState.current_of_tokens hs
  rw [← hs] at hhead
  obtain ⟨s₁, hcursor₁, hlambda⟩ := attemptIf_of_fails (p := lambdaHead g) (s := s)
    fun h => hhead.lambda (by rwa [hs])
  have htokens : s₁.tokens = s.tokens := by rw [ParserState.tokens, hcursor₁, ParserState.tokens]
  obtain ⟨s₂, hcursor₂, hassignment⟩ := attemptIf_of_fails (p := assignmentHead g) (s := s₁)
    fun h => htokens ▸ hhead.assignment (by rwa [hs])
  refine ⟨s₂, hcursor₂.trans hcursor₁, ?_⟩
  unfold expressionWith
  rw [bind_of_ok (rfl : peek s = .ok s.cursor.current s)]
  simp only [formAt?_of_opensOperand ht]
  unfold openExpression
  rw [bind_of_ok hlambda]
  simp only
  rw [bind_of_ok hassignment]
  simp only
  rw [plainExpression_of_opensOperand ht]

/-! ### Operands up to the end of an item -/

/-- Whether a token goes on neither with an expression in front of it nor with a head. -/
structure Token.EndsOperation (t : Token) : Prop where
  head : t.followsHead = false
  operator : ∀ u, BinaryOperator.ofTokens? t u = none

theorem chainRest_of_endsOperation {operators : List BinaryOperator} {operand : Parser Node}
    (hend : s.cursor.current.token.EndsOperation) (r : Nat) :
    chainRest operators operand r s = .ok [] s := by
  cases r with
  | zero => rfl
  | succ r =>
    have hnone : operatorAmong operators s = .ok none s := by
      unfold operatorAmong
      rw [bind_of_ok (rfl : peek s = .ok s.cursor.current s),
        bind_of_ok (rfl : peekFollowing s = .ok s.cursor.following s)]
      simp only [hend.operator]
      rfl
    unfold chainRest
    rw [bind_of_ok hnone]
    rfl

/-- An operand without an operator behind it is a chain of all levels. -/
theorem cascade_of_ok {operand : Parser Node} {node : Node} (h : operand s = .ok node s')
    (hend : s'.cursor.current.token.EndsOperation) (r : Nat) (levels : List OperatorLevel) :
    cascade r operand levels s = .ok node s' := by
  induction levels with
  | nil => exact h
  | cons level levels ih =>
    rw [cascade, chain, bind_of_ok ih, bind_of_ok (chainRest_of_endsOperation hend r)]
    -- nothing is grouped
    cases hassociativity : level.associativity with
    | left => simp only [OperatorLevel.group, hassociativity]; rfl
    | right => simp only [OperatorLevel.group, hassociativity]; rfl

theorem cascade_of_error {operand : Parser Node} {e : ParseError} (h : operand s = .error e s')
    (r : Nat) (levels : List OperatorLevel) : cascade r operand levels s = .error e s' := by
  induction levels with
  | nil => exact h
  | cons level levels ih => exact bind_of_error ih

theorem fails_atom (ht : t.opensOperand = false) : Fails (atom g) (t :: us) := by
  refine Runs.peek_bind fun position => ?_
  dsimp only
  split
  · cases ht
  · cases ht
  · cases ht
  · have hatom : atomOf? t = none := by
      unfold Token.opensOperand at ht
      split at ht
      all_goals simp_all
    simp only [hatom]
    exact Fails.failExpecting

theorem fails_unary (ht : t.opensOperand = false) : Fails (unary g) (t :: us) := by
  have hoperator : unaryOperator? t = none := by
    unfold Token.opensOperand at ht
    split at ht
    all_goals simp_all
  refine Runs.peek_bind fun position => ?_
  simp only [hoperator]
  exact (fails_atom ht).bind

theorem trailers_of_current (h : s.cursor.current.token.opensTrailer = false) (r : Nat) :
    trailers g r s = .ok [] s := by
  cases r with
  | zero => rfl
  | succ r =>
    unfold trailers
    rw [bind_of_ok (eat_of_ne (Token.ne_of_apply h rfl)), if_neg Bool.false_ne_true,
      bind_of_ok (eat_of_ne (Token.ne_of_apply h rfl)), if_neg Bool.false_ne_true,
      bind_of_ok (isAt_run _ s), beq_false_of_ne (Token.ne_of_apply h rfl)]
    rfl

/-- An operand that begins with an atom ends right behind it unless a trailer follows. -/
theorem tokens_of_unary {node : Node} (hg : g.SteadyAlone) (hs : s.tokens = t :: us)
    (hend : .endOfInput ∈ us) (h : unary g s = .ok node s')
    (hatom : BeginsWithAtom (t :: us) (u :: vs)) (hu : u.opensTrailer = false) :
    s'.tokens = u :: vs := by
  have hstart : t = .punctuator .leftParen ∨ ∃ name, t = .identifier name := by
    cases hatom with
    | name name vs => exact .inr ⟨name, rfl⟩
    | parens inside => exact .inl rfl
  have hoperator : unaryOperator? t = none := by
    obtain rfl | ⟨name, rfl⟩ := hstart
    · rfl
    · rfl
  unfold unary at h
  rw [bind_of_ok (rfl : peek s = .ok s.cursor.current s), ParserState.current_of_tokens hs,
    hoperator] at h
  obtain ⟨base, s₁, hbase, h⟩ := bind_eq_ok h
  have htokens : s₁.tokens = u :: vs := by
    have hbehind := beginsWithAtom_of_atom hg hs hstart hend hbase
    rw [hs] at hbehind
    exact hbehind.unique hatom
  obtain ⟨trailers, s₂, htrailers, h⟩ := bind_eq_ok h
  rw [trailers_of_current (by rwa [ParserState.current_of_tokens htokens])] at htrailers
  cases htrailers
  cases h
  exact htokens

/-- What takes the same tokens comes to the same with anything remembered. -/
theorem Coupling.Matches.outcome_eq {p : Parser Node} {node : Node}
    (hp : (Coupling.diagonal s.cursor []).Matches [] []
      ((Coupling.diagonal s.cursor []).Views Node.relocate) p p)
    (hended : s.cursor.Ended) (h : p s = .ok node s') {r : ParserState}
    (hcursor : r.cursor = s.cursor) : ∃ r', p r = .ok node r' ∧ r'.cursor = s'.cursor := by
  have houtcome := hp s r ⟨hcursor, .refl hended⟩
  rw [h] at houtcome
  generalize p r = result at houtcome ⊢
  cases houtcome with
  | @ok _ node' _ r' hrel hview =>
    have hsame : node.relocate id = node'.relocate id := hview
    rw [Node.relocate_id, Node.relocate_id] at hsame
    exact ⟨r', by rw [hsame], hrel.1⟩

/-- **An operand up to the end of an item is an expression.** -/
theorem expressionWith_of_unary {node : Node} (hg : g.SteadyAlone) (hs : s.tokens = t :: us)
    (hend : .endOfInput ∈ us) (h : unary g s = .ok node s')
    (hstop : s'.cursor.current.token.EndsOperation) :
    ∃ r, expressionWith g s = .ok node r ∧ r.cursor = s'.cursor := by
  have hopens : t.opensOperand := by
    by_contra hopens
    have hfails : Fails (unary g) (t :: us) := fails_unary (eq_false_of_ne_true hopens)
    have hrun := hfails s hs
    rw [h] at hrun
    exact hrun.2
  have hhead : Headless g (t :: us) := by
    refine headless_of_beginsWithAtom hg hopens hend fun u vs hatom => ?_
    by_contra hfollows
    -- what follows a head is no trailer, so the operand would end in front of it
    have htokens := tokens_of_unary hg hs hend h hatom
      (Token.opensTrailer_of_followsHead (eq_true_of_ne_false hfollows))
    rw [← ParserState.current_of_tokens htokens, hstop.head] at hfollows
    exact hfollows rfl
  obtain ⟨r, hcursor, hrun⟩ := expressionWith_run hs hopens hhead
  have hended : s.cursor.Ended := ended_iff.2 (hs ▸ List.mem_cons_of_mem t hend)
  obtain ⟨r', hunary, hcursor'⟩ := (matches_unary (hg _ _)).outcome_eq hended h hcursor
  rw [hrun, cascade_of_ok hunary (by rwa [hcursor'])]
  exact ⟨r', rfl, hcursor'⟩

end Heads

end DrakeSyntax
