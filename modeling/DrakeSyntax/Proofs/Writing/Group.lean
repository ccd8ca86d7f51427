import DrakeSyntax.Proofs.Writing.Binding

/-!
# Reading expressions in parentheses

An expression in parentheses is read in every place where an expression, an operand or an atom
can stand (`ReadsGroup`), provided that the expression is read without parentheses by the phrases
inside (`Node.Readable`).

* `Node.Start`: what written nodes begin with, as far as it matters for lambdas and assignments.
* `headless_group`: an expression in parentheses is not taken for parameters or targets.
* `Node.Readable.group`: a node that is readable is read in parentheses.
-/

namespace DrakeSyntax

open DrakeSyntax.Parser

variable {g : Inner} {k w : List Token}

/-! ### What looks like parameters or targets -/

theorem reads_keywordParameter_required {hint : TypeHint} (h : ReadsType g hint) (name : String)
    (hk : Ahead (· != .punctuator .colon) k) :
    Reads (keywordParameter g) (hint.angled ++ .identifier name :: k) k fun a =>
      a.same ⟨hint, name, .required⟩ := by
  obtain ⟨t, k, rfl, ht⟩ := hk.exists_cons
  have hname : Reads (do
        let hint' ← typeHint g
        let found ← identifier
        if ← eat (.punctuator .colon) then
          return (⟨hint', found.1, .default (← g.expression)⟩ : KeywordParameter)
        else return (⟨hint', found.1, .required⟩ : KeywordParameter))
      (hint.angled ++ .identifier name :: t :: k) (t :: k) fun a =>
        a.same ⟨hint, name, .required⟩ := by
    refine (reads_typeHint h).bind fun a ha => ?_
    refine Runs.identifier_bind fun _ => ?_
    refine Runs.eat_bind_ne (by simpa using ht) (Runs.ite_false (ReadsOr.pure ?_))
    simp [KeywordParameter.same, KeywordParameterKind.same, ha]
  rw [TypeHint.angled_append] at hname ⊢
  exact Runs.eat_bind_ne (by decide) (by simpa using hname)

theorem ne_colon_of_endsItem (hk : Ahead Token.endsItem k) :
    Ahead (· != .punctuator .colon) k :=
  hk.mono fun _ ht => bne_iff_ne.2 (Token.ne_of_apply ht rfl)

/-- A target is read as a parameter to its end, or not at all. -/
theorem parameterLike_target {t : Target} (h : ∀ hint ∈ t.typeHint, ReadsType g hint) :
    ParameterLike g t.written := by
  obtain ⟨modifier, hint, name, position⟩ := t
  intro k hk
  -- what has no type first is no parameter of either kind
  have hfails {u : Token} {l : List Token} (hu : u.opensParameter = false) :
      ReadsOr True (positionalParameter g) (u :: l) k (fun _ => True) ∧
        ReadsOr True (keywordParameter g) (u :: l) k fun _ => True :=
    ⟨(fails_positionalParameter hu).or, (fails_keywordParameter hu).or⟩
  match modifier, hint with
  | some .nonlocal, _ => exact hfails rfl
  | some .const, _ => exact hfails rfl
  | none, none => exact hfails rfl
  | none, some hint =>
    have hwords : Target.written ⟨none, some hint, name, position⟩ ++ k =
        hint.angled ++ .identifier name :: k := by
      simp [Target.written]
    have hpositional : PositionalParameter.written ⟨hint, false, name⟩ ++ k =
        hint.angled ++ .identifier name :: k := by
      simp [PositionalParameter.written]
    have hread : ReadsOr True (positionalParameter g)
        (PositionalParameter.written ⟨hint, false, name⟩ ++ k) k
        fun a => a.same ⟨hint, false, name⟩ := reads_positionalParameter (h hint rfl)
    rw [hpositional] at hread
    rw [hwords]
    refine ⟨hread.weaken fun _ _ => trivial, ?_⟩
    have hkeyword := reads_keywordParameter_required (h hint rfl) name (ne_colon_of_endsItem hk)
    exact hkeyword.or.weaken fun _ _ => trivial

theorem targetLike_target {t : Target} (h : ∀ hint ∈ t.typeHint, ReadsType g hint) :
    TargetLike g t.written := by
  intro _ _
  exact (reads_target h).weaken fun _ _ => trivial

theorem Target.written_opensItem (t : Target) : Ahead Token.opensItem t.written := by
  obtain ⟨modifier, hint, name, position⟩ := t
  match modifier, hint with
  | some .nonlocal, _ => rfl
  | some .const, _ => rfl
  | none, none => rfl
  | none, some hint =>
    simp only [Target.written, Option.toList, List.map_nil, List.flatMap_cons, List.flatMap_nil,
      List.append_nil, List.nil_append, TypeHint.angled_append]
    rfl

/-- Whether an arrow or an assignment goes on with the token. -/
def Token.endsHead (t : Token) : Bool := t == .punctuator .arrow || (assignmentOperator? t).isSome

theorem not_endsHead {t : Token} (h : t.endsHead = false) :
    t ≠ .punctuator .arrow ∧ assignmentOperator? t = none := by
  simpa [Token.endsHead] using h

/-- Targets in parentheses without an arrow or an operator behind them are no head. -/
theorem headless_targets {ts : List Target} (h : ∀ t ∈ ts, ∀ hint ∈ t.typeHint, ReadsType g hint)
    (hr : ts.length ≤ g.rounds) (hk : Ahead (fun t => !t.endsHead) k) :
    Headless g (writtenTargets ts ++ k) := by
  obtain ⟨u, k, rfl, hu⟩ := hk.exists_cons
  obtain ⟨harrow, hoperator⟩ := not_endsHead (by simpa using hu)
  have hopens : ∀ w ∈ ts.map Target.written, Ahead Token.opensItem w :=
    List.forall_mem_map.2 fun t _ => t.written_opensItem
  refine ⟨fun _ => ?_, fun _ => ?_⟩
  · exact fails_lambdaHead_items (List.forall_mem_map.2 fun t ht => parameterLike_target (h t ht))
      hopens (by simpa using hr) harrow
  · exact fails_assignmentHead_targets
      (List.forall_mem_map.2 fun t ht => targetLike_target (h t ht)) hopens (by simpa using hr)
      hoperator

/-- Targets in parentheses are not the parameters of a lambda when there is no arrow. -/
theorem fails_lambdaHead_writtenTargets {ts : List Target}
    (h : ∀ t ∈ ts, ∀ hint ∈ t.typeHint, ReadsType g hint) (hr : ts.length ≤ g.rounds) {u : Token}
    (hu : u ≠ .punctuator .arrow) : Fails (lambdaHead g) (writtenTargets ts ++ u :: k) :=
  fails_lambdaHead_items (List.forall_mem_map.2 fun t ht => parameterLike_target (h t ht))
    (List.forall_mem_map.2 fun t _ => t.written_opensItem) (by simpa using hr) hu

/-! ### What nodes begin with -/

/-- Neither a parameter nor a target can begin with the token. -/
def Token.opensPlainly (t : Token) : Bool :=
  t.opensItem && !t.opensParameter && !t.opensTarget

/-- What a written node begins with: it is a single name, a declaration, or its first token tells
it apart from parameters and targets. -/
inductive Node.Start (n : Node) : Prop
  | name (x : String) (written : n.written = [.identifier x])
  | declaration (d : Declaration) (written : n.written = d.written)
  | plain (ahead : Ahead Token.opensPlainly n.written)

theorem Node.Start.opensItem {n : Node} (h : n.Start) : Ahead Token.opensItem n.written := by
  cases h with
  | name x hw =>
    rw [hw]
    rfl
  | declaration d hw =>
    rw [hw, ← d.target_written]
    exact d.target.written_opensItem
  | plain hw =>
    refine hw.mono fun t ht => ?_
    simp only [Token.opensPlainly, Bool.and_eq_true] at ht
    exact ht.1.1

/-- A node in parentheses is not taken for parameters or targets. -/
theorem headless_group {n : Node} (h : n.Start) {depth : Nat}
    (hdepth : n.written.length + 1 ≤ depth) (hk : Ahead (fun t => !t.endsHead) k) :
    Headless (phrases depth) (inParens n.written ++ k) := by
  have hone : 1 ≤ (phrases depth).rounds := by
    rw [phrases_rounds]
    omega
  cases h with
  | name x hw =>
    -- a single name is a target without a type
    have htarget : Headless (phrases depth) (writtenTargets [⟨none, none, x, .start⟩] ++ k) :=
      headless_targets (by simp) hone hk
    rw [hw]
    exact htarget
  | declaration d hw =>
    -- a declaration is written like a target with a type
    have hwritten : writtenTargets [d.target] = inParens d.written := by
      simp [writtenTargets, commaList, d.target_written]
    have hlength : d.typeHint.written.length ≤ depth := by
      rw [hw] at hdepth
      simp only [Declaration.written, TypeHint.angled, List.length_append, List.length_cons]
        at hdepth
      omega
    have htype : ∀ t ∈ [d.target], ∀ hint ∈ t.typeHint, ReadsType (phrases depth) hint := by
      simp only [List.mem_singleton, forall_eq, Declaration.target, Option.mem_some_iff, forall_eq']
      exact readsType_phrases d.typeHint depth hlength
    rw [hw, ← hwritten]
    exact headless_targets htype hone hk
  | plain hw =>
    obtain ⟨t, l, hl, ht⟩ := hw.exists_cons
    simp only [Token.opensPlainly, Bool.and_eq_true, Bool.not_eq_true'] at ht
    obtain ⟨⟨hitem, hparameter⟩, htarget⟩ := ht
    rw [hl]
    exact ⟨fun _ => fails_lambdaHead_paren hitem hparameter,
      fun _ => fails_assignmentHead_paren hitem htarget⟩

/-! ### Expressions in parentheses -/

/-- Whether an expression in parentheses ends in front of the token. -/
def Token.endsGroup : Token → Bool
  | .keyword .then_ | .keyword .else_ | .keyword .catch_ | .keyword .finally_
  | .punctuator .comma | .punctuator .colon | .punctuator .leftBrace
  | .punctuator .rightParen | .punctuator .rightBracket | .punctuator .rightBrace
  | .endOfInput => true
  | _ => false

theorem endsGroup_of_endsItem (hk : Ahead Token.endsItem k) : Ahead Token.endsGroup k := by
  refine hk.mono fun t ht => ?_
  rcases Token.endsItem_cases ht with rfl | rfl | rfl | rfl | rfl <;> rfl

theorem endsOperand_of_endsGroup (levels : List OperatorLevel) (hk : Ahead Token.endsGroup k) :
    EndsOperand levels k := by
  obtain ⟨t, k, rfl, ht⟩ := hk.exists_cons
  unfold Token.endsGroup at ht
  split at ht
  all_goals first
    | exact ⟨rfl, by simp [operatorAhead, BinaryOperator.ofTokens?]⟩
    | cases ht

theorem not_endsHead_of_endsGroup (hk : Ahead Token.endsGroup k) :
    Ahead (fun t => !t.endsHead) k := by
  refine hk.mono fun t ht => ?_
  unfold Token.endsGroup at ht
  split at ht
  all_goals first
    | rfl
    | cases ht

/-- The node in parentheses is read wherever an atom, an operand or an expression can stand. -/
structure ReadsGroup (g : Inner) (n : Node) : Prop where
  atom : ∀ k, Reads (atom g) (inParens n.written ++ k) k fun m => m.same n
  operand : ReadsOperand (Parser.unary g) [] ⟨inParens n.written, n⟩
  unary : ReadsOperand g.unary [] ⟨inParens n.written, n⟩
  expression : ∀ k, Ahead Token.endsGroup k →
    Reads g.expression (inParens n.written ++ k) k fun m => m.same n
  headless : ∀ k, Ahead (fun t => !t.endsHead) k → Headless g (inParens n.written ++ k)

namespace ReadsGroup

variable {n : Node}

theorem expression_cons (h : ReadsGroup g n) {t : Token} (ht : t.endsGroup) :
    Reads g.expression (inParens n.written ++ t :: k) (t :: k) fun m => m.same n :=
  h.expression (t :: k) ht

theorem someExpression (h : ReadsGroup g n) (hk : Ahead Token.endsGroup k) :
    Reads (some <$> g.expression) (inParens n.written ++ k) k fun m =>
      Node.sameOptional m (some n) :=
  (h.expression k hk).map fun m hm => by simpa using hm

theorem someUnary (h : ReadsGroup g n) (hk : EndsOperand [] k) :
    Reads (some <$> g.unary) (inParens n.written ++ k) k fun m =>
      Node.sameOptional m (some n) :=
  (h.unary k hk).map fun m hm => by simpa using hm

end ReadsGroup

/-- The production that reads a node without parentheses where no expression can stand. -/
def directParser (g : Inner) : NodeKind → Option (Parser Node)
  | .list _ => some (bracket g)
  | .block _ => some (block g)
  | .for_ .. => some (forLoop g)
  | .while_ .. => some (whileLoop g)
  | .object _ => some (blockForm g .object .object)
  | .mapping _ => some (brace g)
  | .tuple _ => some (tuple g)
  | .literal (.string _) => some (Parser.atom g)
  | _ => none

/-- The node without parentheses is read as an expression, and by the production that reads it
where no expression can stand. -/
structure ReadsNode (g : Inner) (n : Node) : Prop where
  expression : ∀ k, Ahead Token.endsItem k →
    Reads (expressionWith g) (n.written ++ k) k fun m => m.same n
  direct : ∀ p ∈ directParser g n.kind, ∀ k, Reads p (n.written ++ k) k fun m => m.same n

/-- The node is read by phrases of enough depth. -/
structure Node.Readable (n : Node) : Prop where
  start : n.Start
  reads : ∀ depth, n.written.length ≤ depth → ReadsNode (phrases depth) n

/-- A node that is readable is read in parentheses. -/
theorem Node.Readable.group {n : Node} (h : n.Readable) {d : Nat}
    (hdepth : (inParens n.written).length ≤ d) : ReadsGroup (phrases d) n := by
  simp only [inParens, List.length_cons, List.length_append, List.length_nil] at hdepth
  obtain ⟨depth, rfl⟩ : ∃ e, d = e + 2 := ⟨d - 2, by omega⟩
  have hopen := h.start.opensItem
  -- each parenthesis takes a level of depth
  have hinside (d : Nat) (hd : n.written.length ≤ d) (k : List Token)
      (hk : Ahead Token.endsItem k) :
      Reads (phrases (d + 1)).expression (n.written ++ k) k fun m => m.same n :=
    (h.reads d hd).expression k hk
  have hatom (d : Nat) (hd : n.written.length ≤ d) (k : List Token) :
      Reads (Parser.atom (phrases (d + 1))) (inParens n.written ++ k) k fun m => m.same n :=
    reads_atom_group (by simp) hopen (hinside d hd)
  have hoperand (d : Nat) (hd : n.written.length ≤ d) :
      ReadsOperand (Parser.unary (phrases (d + 1))) [] ⟨inParens n.written, n⟩ :=
    readsOperand_of_atom rfl (hatom d hd)
  refine ⟨hatom (depth + 1) (by omega), hoperand (depth + 1) (by omega), hoperand depth (by omega),
    fun k hk => ?_, fun k hk => headless_group h.start (by omega) hk⟩
  have hhead : Headless (phrases (depth + 1)) (inParens n.written ++ k) :=
    headless_group h.start (by omega) (not_endsHead_of_endsGroup hk)
  -- no level finds an operator behind the closing parenthesis
  have hcascade := (hoperand depth (by omega)).cascade (r := (phrases (depth + 1)).rounds)
    OperatorLevel.all
  rw [List.append_nil] at hcascade
  exact reads_operandExpression hcascade rfl (endsOperand_of_endsGroup _ hk) hhead

end DrakeSyntax
