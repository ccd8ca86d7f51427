import DrakeSyntax.Proofs.Writing.Enclosed

/-!
# Reading lambdas, assignments and declarations as they are written

The parameters of a lambda are told apart by how far they go: what a positional parameter and a
required named one have in common counts as positional, so a required parameter stands behind
another named one.

* `reads_lambdaHead`: parameters in parentheses and the arrow behind them.
* `reads_assignmentHead`: targets in parentheses and the operator behind them.
* `reads_expression_declaration`: a declaration is not taken for one of these.
-/

namespace DrakeSyntax

open DrakeSyntax.Parser

variable {g : Inner} {k : List Token} {position : Position}

/-! ### Lambdas -/

/-- What is read inside a named parameter. -/
structure ReadsParameter (g : Inner) (p : KeywordParameter) : Prop where
  typeHint : ReadsType g p.typeHint
  value : ∀ n ∈ p.kind.nodes, ReadsGroup g n

/-- A named parameter is read as it is written. -/
theorem reads_keywordParameter {p : KeywordParameter} (h : ReadsParameter g p)
    (hk : Ahead Token.endsItem k) :
    Reads (keywordParameter g) (p.written ++ k) k fun q => q.same p := by
  obtain ⟨hint, name, kind⟩ := p
  obtain ⟨htype, hvalue⟩ := h
  rw [KeywordParameter.written]
  cases kind with
  | required =>
    rw [KeywordParameterKind.written, List.append_assoc]
    exact reads_keywordParameter_required htype name (ne_colon_of_endsItem hk)
  | default value =>
    have hname : Reads (do
          let hint' ← typeHint g
          let found ← identifier
          if ← eat (.punctuator .colon) then
            return (⟨hint', found.1, .default (← g.expression)⟩ : KeywordParameter)
          else return (⟨hint', found.1, .required⟩ : KeywordParameter))
        (hint.angled ++ .identifier name :: .punctuator .colon :: (inParens value.written ++ k)) k
        fun q => q.same ⟨hint, name, .default value⟩ := by
      refine (reads_typeHint htype).bind fun a ha => ?_
      refine Runs.identifier_bind fun _ => ?_
      refine Runs.eat_bind (by decide) (Runs.ite_true ?_)
      have hgroup := (hvalue value (by simp [KeywordParameterKind.nodes])).expression k
        (endsGroup_of_endsItem hk)
      refine hgroup.bind fun m hm => ReadsOr.pure ?_
      simp [KeywordParameter.same, KeywordParameterKind.same, ha, hm]
    have hwords : KeywordParameterKind.written (hint.angled ++ [.identifier name])
        (.default value) ++ k = hint.angled ++ .identifier name ::
          .punctuator .colon :: (inParens value.written ++ k) := by
      simp [KeywordParameterKind.written]
    rw [hwords]
    rw [TypeHint.angled_append] at hname ⊢
    exact Runs.eat_bind_ne (by decide) hname
  | collector =>
    rw [KeywordParameterKind.written, List.cons_append, List.append_assoc]
    refine Runs.eat_bind (by decide) ?_
    refine (reads_typeHint htype).bind fun a ha => ?_
    refine Runs.identifier_bind fun _ => ?_
    refine Runs.ite_true (ReadsOr.pure ?_)
    simp [KeywordParameter.same, KeywordParameterKind.same, ha]

/-- A positional parameter is not longer when it is read as a named one. -/
theorem reads_longer_positional {p : PositionalParameter} (h : ReadsType g p.typeHint)
    (hk : Ahead Token.endsItem k) :
    Reads (longer (positionalParameter g) (keywordParameter g)) (p.written ++ k) k
      (Sum.elim (fun q => q.same p) fun _ => False) := by
  refine reads_longer_inl (reads_positionalParameter h) ?_
  obtain ⟨hint, variadic, name⟩ := p
  cases variadic with
  | true =>
    -- stars and no type: not a named parameter
    have hfails : Fails (keywordParameter g)
        (PositionalParameter.written ⟨hint, true, name⟩ ++ k) :=
      Runs.eat_bind_ne (by decide) (fails_typeHint (by decide)).bind
    exact hfails.weaken (fun _ _ h => h.elim) id
  | false =>
    have hwords : PositionalParameter.written ⟨hint, false, name⟩ ++ k =
        hint.angled ++ .identifier name :: k := by
      simp [PositionalParameter.written]
    rw [hwords]
    have hkeyword := reads_keywordParameter_required h name (ne_colon_of_endsItem hk)
    exact Runs.weaken hkeyword.or (fun _ m hm => Nat.le_of_eq (congrArg List.length hm.1.symm)) id

/-- A named parameter with a default value or with stars is shorter, or nothing at all, when it is
read as a positional one. -/
theorem reads_longer_named {p : KeywordParameter} (h : ReadsParameter g p)
    (hkind : p.kind ≠ .required) (hk : Ahead Token.endsItem k) :
    Reads (longer (positionalParameter g) (keywordParameter g)) (p.written ++ k) k
      (Sum.elim (fun _ => False) fun q => q.same p) := by
  refine reads_longer_inr ?_ (reads_keywordParameter h hk)
  obtain ⟨hint, name, kind⟩ := p
  rw [KeywordParameter.written]
  match kind with
  | .required => exact absurd rfl hkind
  | .default value =>
    have hwords : KeywordParameterKind.written (hint.angled ++ [.identifier name])
        (.default value) ++ k = PositionalParameter.written ⟨hint, false, name⟩ ++
          .punctuator .colon :: (inParens value.written ++ k) := by
      simp [KeywordParameterKind.written, PositionalParameter.written]
    -- the positional reading stops at the colon
    have hpositional : Reads (positionalParameter g) (PositionalParameter.written
        ⟨hint, false, name⟩ ++ .punctuator .colon :: (inParens value.written ++ k))
        (.punctuator .colon :: (inParens value.written ++ k)) fun q => q.same ⟨hint, false, name⟩ :=
      reads_positionalParameter h.typeHint
    rw [hwords]
    refine Runs.weaken hpositional.or ?_ id
    rintro _ _ ⟨rfl, -⟩
    simp only [List.length_cons, List.length_append]
    omega
  | .collector =>
    rw [KeywordParameterKind.written]
    have hfails : Fails (positionalParameter g)
        (.punctuator .starStar :: (hint.angled ++ [.identifier name]) ++ k) :=
      Runs.eat_bind_ne (by decide) (fails_typeHint (by decide)).bind
    exact hfails.weaken (fun _ _ h => h.elim) id

theorem PositionalParameter.written_opensItem (p : PositionalParameter) :
    Ahead Token.opensItem p.written := by
  obtain ⟨hint, variadic, name⟩ := p
  cases variadic <;> rfl

theorem KeywordParameter.written_opensItem (p : KeywordParameter) :
    Ahead Token.opensItem p.written := by
  obtain ⟨hint, name, kind⟩ := p
  cases kind <;> rfl

/-- What is read in front of the arrow of a lambda. -/
structure ReadsLambdaHead (g : Inner) (positional : List PositionalParameter)
    (keyword : List KeywordParameter) : Prop where
  typeHint : ∀ p ∈ positional, ReadsType g p.typeHint
  named : ∀ p ∈ keyword, ReadsParameter g p
  first : ∀ p ∈ keyword.head?, p.kind ≠ .required
  rounds : positional.length + keyword.length ≤ g.rounds

variable {positional : List PositionalParameter} {keyword : List KeywordParameter}

/-- The parameters of a lambda are read as they are written. -/
theorem reads_lambdaHead (h : ReadsLambdaHead g positional keyword) :
    Reads (lambdaHead g) (inParens (commaList (positional.map PositionalParameter.written
        ++ KeywordParameter.writtenAll keyword)) ++ .punctuator .arrow :: k) k fun head =>
      sameList PositionalParameter.same head.positional positional ∧
        KeywordParameter.sameAll head.keyword keyword := by
  rw [KeywordParameter.writtenAll_eq_map, inParens_append]
  have hlists := reads_twoKindList (k := .punctuator .rightParen :: .punctuator .arrow :: k) rfl
    (fun p hp l hl => reads_longer_positional (h.typeHint p hp) hl)
    (fun p hp l hl =>
      reads_longer_named (h.named p (List.mem_of_mem_head? hp)) (h.first p hp) hl)
    (fun p hp l hl => reads_keywordParameter (h.named p hp) hl)
    (fun p _ => p.written_opensItem) (fun p _ => p.written_opensItem) h.rounds
  have hdelimited : Reads
      (twoKindDelimited g.rounds (positionalParameter g) (keywordParameter g))
      (.punctuator .leftParen :: (commaList (positional.map PositionalParameter.written
        ++ keyword.map KeywordParameter.written)
          ++ .punctuator .rightParen :: .punctuator .arrow :: k))
      (.punctuator .arrow :: k) fun found =>
        sameList PositionalParameter.same found.1 positional ∧
          KeywordParameter.sameAll found.2 keyword := by
    refine Runs.eat_bind (by decide) (Runs.ite_true ?_)
    refine hlists.bind fun found hfound => ?_
    refine Runs.discard_bind (Runs.expect_bind (by decide) fun _ => ReadsOr.pure ?_)
    exact ⟨sameList_iff.2 hfound.1.flip, KeywordParameter.sameAll_iff.2 hfound.2.flip⟩
  refine hdelimited.bind fun found hfound => ?_
  exact Runs.discard_bind (Runs.expect_bind (by decide) fun _ => ReadsOr.pure hfound)

/-- A lambda is read as it is written. -/
theorem reads_expression_lambda {body : Node} (h : ReadsLambdaHead g positional keyword)
    (hbody : ReadsGroup g body) (hk : Ahead Token.endsItem k) :
    Reads (expressionWith g) ((NodeKind.lambda positional keyword body).written ++ k) k fun m =>
      m.same ⟨.lambda positional keyword body, position⟩ := by
  have hhead := reads_lambdaHead (k := inParens body.written ++ k) h
  rw [NodeKind.written, List.append_assoc, List.cons_append]
  rw [inParens_append] at hhead ⊢
  refine Runs.peek_bind fun start => ?_
  refine hhead.attemptIf_bind fun head hparameters => ?_
  refine (hbody.expression k (endsGroup_of_endsItem hk)).bind fun m hm => ReadsOr.pure ?_
  simp [Node.same, NodeKind.same, hparameters.1, hparameters.2, hm]

/-! ### Assignments -/

/-- What is read in front of the operator of an assignment. -/
structure ReadsTargets (g : Inner) (ts : List Target) : Prop where
  typeHint : ∀ t ∈ ts, ∀ hint ∈ t.typeHint, ReadsType g hint
  nonempty : ts ≠ []
  rounds : ts.length ≤ g.rounds

variable {ts : List Target}

/-- Targets in parentheses are read as they are written. -/
theorem reads_targets {what : String} (h : ReadsTargets g ts) :
    Reads (targets g what) (writtenTargets ts ++ k) k fun found =>
      sameList Target.same found ts := by
  have hitem : ∀ t ∈ ts, ∀ k, Ahead Token.endsItem k →
      Reads (target g) (t.written ++ k) k fun a => a.same t :=
    fun t ht k _ => reads_target (h.typeHint t ht)
  have hlist := reads_delimited hitem (fun t _ => t.written_opensItem) h.rounds k
  rw [writtenTargets, inParens_append]
  refine hlist.bind fun found hfound => ?_
  -- the list is not empty, as the check wants
  have hne : found.isEmpty = false := by
    cases hfound with
    | nil => exact absurd rfl h.nonempty
    | cons => rfl
  rw [hne]
  exact Runs.ite_false (ReadsOr.pure (sameList_iff.2 hfound.flip))

theorem assignmentOperator?_token (operator : AssignmentOperator) :
    assignmentOperator? operator.token = some operator := by
  cases operator <;> rfl

/-- The targets of an assignment are read as they are written. -/
theorem reads_assignmentHead (h : ReadsTargets g ts) (operator : AssignmentOperator) :
    Reads (assignmentHead g) (writtenTargets ts ++ operator.token :: k) k fun head =>
      sameList Target.same head.targets ts ∧ head.operator = operator := by
  refine (reads_targets h).bind fun found hfound => ?_
  refine Runs.peek_bind fun _ => ?_
  have hend : operator.token ≠ .endOfInput := by cases operator <;> decide
  simp only [assignmentOperator?_token]
  exact Runs.discard_bind (Runs.advance_bind hend fun _ => ReadsOr.pure ⟨hfound, rfl⟩)

/-- A value can be combined with the old one of a single target that is not constant. -/
theorem reads_assignmentValue {operator : AssignmentOperator} {value : Node}
    (hshape : (NodeKind.assignment ts operator value).WellShaped) (hvalue : ReadsGroup g value)
    (hk : Ahead Token.endsGroup k) {found : List Target} (hfound : sameList Target.same found ts)
    (token : PlacedToken) (start : Position) :
    Reads (assignmentValue g ⟨found, operator, token⟩ start) (inParens value.written ++ k) k
      fun m => m.same ⟨.assignment ts operator value, position⟩ := by
  -- neither of the two checks rejects
  have hfits : (operator.isAugmented && decide (1 < found.length)) = false ∧
      (operator.isAugmented && found.any (·.modifier == some .const)) = false := by
    cases haugmented : operator.isAugmented with
    | false => exact ⟨rfl, rfl⟩
    | true =>
      obtain ⟨t, rfl, hmodifier⟩ := hshape.2 (of_decide_eq_true haugmented)
      cases sameList_iff.1 hfound with
      | cons hsame hrest =>
        cases hrest
        simp only [Target.same, Bool.and_eq_true, beq_iff_eq] at hsame
        simpa [hsame.1.1] using hmodifier
  simp only [assignmentValue, hfits.1, hfits.2]
  refine Runs.ite_false (Runs.ite_false ((hvalue.expression k hk).bind fun m hm => ?_))
  exact ReadsOr.pure (by simp [Node.same, NodeKind.same, hfound, hm])

/-- An assignment is read as it is written. -/
theorem reads_expression_assignment {operator : AssignmentOperator} {value : Node}
    (hshape : (NodeKind.assignment ts operator value).WellShaped) (h : ReadsTargets g ts)
    (hvalue : ReadsGroup g value) (hk : Ahead Token.endsItem k) :
    Reads (expressionWith g) ((NodeKind.assignment ts operator value).written ++ k) k fun m =>
      m.same ⟨.assignment ts operator value, position⟩ := by
  -- the targets could be parameters, but no arrow follows
  have hlambda : Fails (lambdaHead g)
      (writtenTargets ts ++ operator.token :: (inParens value.written ++ k)) :=
    fails_lambdaHead_writtenTargets h.typeHint h.rounds (by cases operator <;> decide)
  have hhead := reads_assignmentHead (k := inParens value.written ++ k) h operator
  rw [NodeKind.written, List.append_assoc, List.cons_append]
  rw [writtenTargets, inParens_append] at hlambda hhead ⊢
  refine Runs.peek_bind fun start => ?_
  refine Fails.attemptIf_bind (fun _ => hlambda) ?_
  refine hhead.attemptIf_bind ?_
  rintro ⟨found, _, token⟩ ⟨hfound, rfl⟩
  exact reads_assignmentValue hshape hvalue (endsGroup_of_endsItem hk) hfound token start

/-! ### Declarations -/

/-- A declaration without an arrow or an operator behind it is no head. -/
theorem headless_declaration {d : Declaration} (h : ReadsType g d.typeHint)
    (hk : Ahead Token.endsItem k) : Headless g (d.written ++ k) := by
  have htype : ∀ hint ∈ d.target.typeHint, ReadsType g hint := by
    simpa [Declaration.target] using h
  have htarget : ReadsOr True (target g) (d.written ++ k) k fun _ => True := by
    rw [← d.target_written]
    exact (reads_target htype).weaken fun _ _ => trivial
  have hopen : Ahead Token.opensTarget d.written := by
    obtain ⟨constant, hint, name⟩ := d
    cases constant <;> rfl
  obtain ⟨t, k, rfl, ht⟩ := hk.exists_cons
  have hends : Ahead (fun t => !t.endsHead) (t :: k) :=
    not_endsHead_of_endsGroup (endsGroup_of_endsItem hk)
  obtain ⟨harrow, hoperator⟩ := not_endsHead (t := t) (by simpa [Ahead] using hends)
  refine ⟨fun hlambda => ?_, fun _ => fails_assignmentHead_target htarget hopen hoperator⟩
  -- with `const` in front no lambda is tried
  have hparameter : Ahead Token.opensParameter d.written := by
    obtain ⟨constant, hint, name⟩ := d
    cases constant with
    | true => cases hlambda
    | false => rfl
  rw [← d.target_written] at hparameter ⊢
  exact fails_lambdaHead_item (parameterLike_target htype) hparameter ht harrow

/-- A declaration is read as it is written. -/
theorem reads_expression_declaration {d : Declaration} (h : ReadsType g d.typeHint)
    (hk : Ahead Token.endsItem k) :
    Reads (expressionWith g) (d.written ++ k) k fun m => m.same ⟨.declaration d, position⟩ := by
  have hread := reads_declaration (k := k) h position
  have hhead := headless_declaration h hk
  have hopen : Ahead (fun t => t == .keyword .const || t == .punctuator .less) d.written := by
    obtain ⟨constant, hint, name⟩ := d
    cases constant <;> rfl
  obtain ⟨t, w, hw, ht⟩ := hopen.exists_cons
  rw [hw] at hread hhead ⊢
  refine Runs.peek_bind fun start => ?_
  obtain rfl | rfl : t = .keyword .const ∨ t = .punctuator .less := by simpa using ht
  · refine Fails.attemptIf_bind hhead.lambda (Fails.attemptIf_bind hhead.assignment ?_)
    exact hread
  · refine Fails.attemptIf_bind hhead.lambda (Fails.attemptIf_bind hhead.assignment ?_)
    exact hread

end DrakeSyntax
