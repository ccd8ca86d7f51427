import DrakeSyntax.Proofs.Memo
import DrakeSyntax.Proofs.WellFormed
import DrakeSyntax.Proofs.Yields

/-!
# Parameters and targets that parsers build

Productions are given well-formed phrases (`Inner.WellFormed`) and build what is well-formed of
them. Here they do so for parameters, targets and declarations.

* `longer_parameters`: a parameter that could be positional is never taken as a named one, so
  that the named parameters of a lambda do not begin with one that has neither a value nor
  stars.
* `yields_assignmentHead`, `yields_assignmentValue`: an assignment has a target, and one that
  combines values has a single one that is not constant.
-/

namespace DrakeSyntax

open DrakeSyntax.Parser

/-- The phrases inside are well-formed and not remembered, and types leave alone what is. -/
structure Inner.WellFormed (g : Inner) : Prop where
  forgetful : g.remembers = false
  expression : Yields g.expression Node.WellFormed
  unary : Yields g.unary Node.WellFormed
  type : KeepsTable g.type

variable {g : Inner}

/-! ### Types do not remember anything -/

theorem keepsTable_advance : KeepsTable advance := fun _ => rfl

theorem keepsTable_isAt (t : Token) : KeepsTable (isAt t) := fun _ => rfl

theorem keepsTable_eat (t : Token) : KeepsTable (eat t) := by
  refine (keepsTable_isAt t).bind fun found => .ite ?_ (.pure _)
  exact (KeepsTable.bind (fun _ => rfl) fun _ => .pure _)

theorem keepsTable_expect (t : Token) : KeepsTable (expect t) :=
  (keepsTable_isAt t).bind fun _ => .ite (keepsTable_advance.bind fun _ => .pure _) fun _ => rfl

theorem keepsTable_identifier : KeepsTable identifier := by
  refine KeepsTable.bind (p := peek) (fun _ => rfl) fun t => ?_
  split
  · exact KeepsTable.bind (fun _ => rfl) fun _ => .pure _
  · exact fun _ => rfl

theorem KeepsTable.discard {α : Type} {p : Parser α} (hp : KeepsTable p) :
    KeepsTable (discard p) := by
  have h : Functor.discard p = p >>= fun _ => Pure.pure () := by
    rw [bind_pure_comp]
    rfl
  rw [h]
  exact hp.bind fun _ => .pure _

theorem keepsTable_listFrom {α : Type} {item : Option α → Parser α}
    (hitem : ∀ last, KeepsTable (item last)) {r : Nat} (separator : Option Separator) (last : α) :
    KeepsTable (listFrom item r separator last) := by
  induction r generalizing separator last with
  | zero => exact .pure _
  | succ r ih =>
    unfold listFrom
    refine (keepsTable_isAt _).bind fun atComma => .ite ?_ ?_
    · refine .ite (fun _ => rfl) (keepsTable_advance.discard.bind fun _ => ?_)
      refine (keepsTable_eat _).discard.bind fun _ => ?_
      refine KeepsTable.bind (p := peek) (fun _ => rfl) ?_
      exact fun t => .ite (.pure _) ((hitem _).bind fun next => (ih _ _).bind fun _ => .pure _)
    · refine (keepsTable_isAt _).bind fun atNewline => .ite ?_ (.pure _)
      refine KeepsTable.bind (p := peekFollowing) (fun _ => rfl) fun following => ?_
      refine .ite ?_ (.ite ?_ ?_)
      · exact keepsTable_advance.discard.bind fun _ => .pure _
      · exact keepsTable_advance.discard.bind fun _ => fun _ => rfl
      · refine .ite (fun _ => rfl) (keepsTable_advance.discard.bind fun _ => ?_)
        refine (hitem _).bind fun next => ?_
        exact (ih _ _).bind fun _ => .pure _

theorem keepsTable_list {α : Type} {item : Parser α} (hitem : KeepsTable item) {r : Nat} :
    KeepsTable (list r item) := by
  refine (keepsTable_eat _).discard.bind fun _ => ?_
  refine KeepsTable.bind (p := peek) (fun _ => rfl) ?_
  exact fun t => .ite (.pure _) (hitem.bind fun first => keepsTable_listFrom (fun _ => hitem) _ _)

theorem keepsTable_typeName (hg : KeepsTable g.type) : KeepsTable (typeName g) := by
  refine keepsTable_identifier.bind fun (name, position) => ?_
  refine (keepsTable_eat _).bind fun found => .ite ?_ (.pure _)
  refine (keepsTable_list hg).bind fun parameters => ?_
  exact (keepsTable_expect _).discard.bind fun _ => .pure _

theorem keepsTable_typeHint (hg : KeepsTable g.type) : KeepsTable (typeHint g) := by
  refine (keepsTable_expect _).discard.bind fun _ => ?_
  refine (keepsTable_typeName hg).bind fun hint => ?_
  exact (keepsTable_expect _).discard.bind fun _ => .pure _

theorem keepsTable_positionalParameter (hg : KeepsTable g.type) :
    KeepsTable (positionalParameter g) := by
  refine (keepsTable_eat _).bind fun variadic => ?_
  refine (keepsTable_typeHint hg).bind fun hint => ?_
  exact keepsTable_identifier.bind fun (name, _) => .pure _

/-! ### Parameters and targets -/

/-- The default value of the parameter, if it has one, is well-formed. -/
def KeywordParameter.WellFormed (k : KeywordParameter) : Prop := ∀ c ∈ k.kind.nodes, c.WellFormed

theorem typeHint_start {s s' : ParserState} {hint : TypeHint} (h : typeHint g s = .ok hint s') :
    s.cursor.current.token = .punctuator .less := by
  refine Decidable.byContradiction fun hne => ?_
  -- without the opening sign the first step fails
  have hexpect : (discard (expect (.punctuator .less)) : Parser Unit) s =
      .error (.unexpected [(Token.punctuator .less).describe] s.cursor.current) s := by
    simp only [Functor.discard, Functor.mapConst, EStateM.map, Function.comp, expect_of_ne hne]
  unfold typeHint at h
  rw [bind_of_error hexpect] at h
  cases h

theorem yields_keywordParameter (hg : g.WellFormed) :
    Yields (keywordParameter g) KeywordParameter.WellFormed := by
  refine .skip fun collector => .skip fun hint => .skip fun (name, _) => ?_
  refine .ite (fun _ => ?_) fun _ => ?_
  · exact .pure (by simp [KeywordParameter.WellFormed, KeywordParameterKind.nodes])
  · refine .skip fun hasValue => .ite (fun _ => ?_) fun _ => ?_
    · refine hg.expression.bind fun value hvalue => .pure ?_
      simpa [KeywordParameter.WellFormed, KeywordParameterKind.nodes] using hvalue
    · exact .pure (by simp [KeywordParameter.WellFormed, KeywordParameterKind.nodes])

/-- A named parameter without stars and value reads as a positional one, to the same place. -/
theorem positionalParameter_of_required {s s' : ParserState} {hint : TypeHint} {name : String}
    (h : keywordParameter g s = .ok ⟨hint, name, .required⟩ s') :
    ∃ a, positionalParameter g s = .ok a s' := by
  unfold keywordParameter at h
  obtain ⟨collector, s₁, hcollector, h₁⟩ := bind_eq_ok h
  obtain ⟨hint', s₂, hhint, h₂⟩ := bind_eq_ok h₁
  obtain ⟨⟨name', position⟩, s₃, hname, h₃⟩ := bind_eq_ok h₂
  cases collector with
  | true => cases h₃
  | false =>
    -- no stars are in front
    obtain rfl : s₁ = s := eat_eq_false hcollector
    obtain ⟨hasValue, s₄, hvalue, h₄⟩ := bind_eq_ok h₃
    cases hasValue with
    | true =>
      obtain ⟨value, s₅, -, h₅⟩ := bind_eq_ok h₄
      cases h₅
    | false =>
      -- no value is behind
      obtain rfl : s₄ = s₃ := eat_eq_false hvalue
      cases h₄
      -- the type comes first, so no single star is in front either
      have hstar : s₁.cursor.current.token ≠ .punctuator .star := by
        rw [typeHint_start hhint]
        decide
      refine ⟨⟨hint, false, name⟩, ?_⟩
      unfold positionalParameter
      rw [bind_of_ok (eat_of_ne hstar), bind_of_ok hhint, bind_of_ok hname]
      rfl

/-- A parameter that could be positional is not taken as a named one. -/
theorem longer_parameters (hg : KeepsTable g.type) :
    Yields (longer (positionalParameter g) (keywordParameter g))
      (Sum.elim (fun _ => True) fun k => k.kind ≠ .required) := by
  intro s item s' hrun
  cases item with
  | inl a => trivial
  | inr k =>
    obtain ⟨hk, hlonger⟩ := longer_eq_inr (keepsTable_positionalParameter hg) hrun
    obtain ⟨hint, name, kind⟩ := k
    rintro rfl
    -- the positional reading ends at the same place
    obtain ⟨a, ha⟩ := positionalParameter_of_required hk
    exact absurd (hlonger a s' ha) (Nat.lt_irrefl _)

/-- What comes before the body of a lambda leaves a well-formed lambda to be completed. -/
def Parser.LambdaHead.WellFormed (head : LambdaHead) : Prop :=
  (∀ k ∈ head.keyword, k.WellFormed) ∧ ∀ k ∈ head.keyword.head?, k.kind ≠ .required

theorem yields_lambdaHead (hg : g.WellFormed) : Yields (lambdaHead g) LambdaHead.WellFormed := by
  refine (yields_twoKindDelimited (.any _) (yields_keywordParameter hg)
    (longer_parameters hg.type)).bind fun (positional, keyword) h => .skip fun _ => .pure ?_
  exact h.2

theorem yields_lambdaBody (hg : g.WellFormed) {head : LambdaHead} (hhead : head.WellFormed)
    (position : Position) : Yields (lambdaBody g head position) Node.WellFormed := by
  refine hg.expression.bind fun body hbody => .pure (.node hhead.2 fun c hc => ?_)
  simp only [NodeKind.children, List.mem_append, List.mem_flatMap, List.mem_singleton] at hc
  rcases hc with ⟨k, hk, hc⟩ | rfl
  · exact hhead.1 k hk c hc
  · exact hbody

theorem yields_targets (what : String) : Yields (targets g what) (· ≠ []) := by
  refine .skip fun ts => .ite (fun _ => yields_failExpecting _) fun hne => .pure ?_
  rintro rfl
  exact hne rfl

theorem yields_assignmentHead : Yields (assignmentHead g) fun head => head.targets ≠ [] := by
  refine (yields_targets _).bind fun ts hts => ?_
  refine .skip fun operatorToken => ?_
  cases assignmentOperator? operatorToken.token with
  | some operator => exact .skip fun _ => .pure hts
  | none => exact yields_failExpecting _

/-- The two checks leave a single target that is not constant to an augmented assignment. -/
theorem yields_assignmentValue (hg : g.WellFormed) {head : AssignmentHead}
    (hhead : head.targets ≠ []) (position : Position) :
    Yields (assignmentValue g head position) Node.WellFormed := by
  refine .ite (fun _ => yields_rejectAt _ _) fun hsingle => ?_
  refine .ite (fun _ => yields_rejectAt _ _) fun hconst => ?_
  refine hg.expression.bind fun value hvalue => .pure (.node ⟨hhead, fun haugmented => ?_⟩ ?_)
  · simp only [AssignmentOperator.isAugmented, haugmented, ne_eq, not_false_eq_true, decide_true,
      Bool.true_and, decide_eq_true_eq, List.any_eq_true, beq_iff_eq, not_exists, not_and]
      at hsingle hconst
    match htargets : head.targets, hhead with
    | [target], _ => exact ⟨target, rfl, hconst target (by simp [htargets])⟩
    | _ :: _ :: _, _ => simp [htargets] at hsingle
  · simpa [NodeKind.children] using hvalue

theorem yields_declaration : Yields (declaration g) Node.WellFormed :=
  .skip fun _ => .skip fun _ => .skip fun _ => .skip fun (_, _) =>
    .pure (.node trivial (by simp [NodeKind.children]))

end DrakeSyntax
