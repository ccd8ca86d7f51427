import DrakeSyntax.Proofs.WellFormed.Binding

/-!
# Operands and chains that parsers build

What stands between brackets, braces and parentheses, operands and chains of operators are
well-formed when the phrases inside them are.

* `yields_bracket`: brackets give a list.
* `yields_brace`: braces give a mapping that is not empty, or a block.
* `group_wellFormed`: grouping a chain gives each operator as many operands as it should have.
-/

namespace DrakeSyntax

open DrakeSyntax.Parser

variable {g : Inner}

/-! ### Brackets, braces and parentheses -/

/-- The node is a well-formed list or range. -/
def Node.IsList (n : Node) : Prop := n.WellFormed ∧ n.kind.isList

theorem isList_items {ns : List Node} (h : ∀ n ∈ ns, n.WellFormed) (position : Position) :
    Node.IsList ⟨.list (.items ns), position⟩ :=
  ⟨.node trivial h, rfl⟩

theorem yields_bracketItems {position : Position} {items : Parser (ItemList Node)}
    (h : Yields items fun l => ∀ n ∈ l.items, n.WellFormed) :
    Yields (bracketItems position items) Node.IsList := by
  refine h.bind fun _ hl => ?_
  exact .skip fun _ => .pure (isList_items hl position)

theorem yields_rangeBehind (hg : g.WellFormed) {start : Node} (hstart : start.WellFormed)
    (position : Position) : Yields (rangeBehind g start position) Node.IsList := by
  have hsome : Yields (some <$> g.unary) fun end? => ∀ n ∈ end?, n.WellFormed :=
    hg.unary.map fun n hn => by simpa using hn
  have hnone : Yields (pure none : Parser (Option Node)) fun end? => ∀ n ∈ end?, n.WellFormed :=
    .pure (by simp)
  -- the range from its parts
  have hbuilt {stop step : Option Node} (hstop : ∀ n ∈ stop, n.WellFormed)
      (hstep : ∀ n ∈ step, n.WellFormed) :
      Node.IsList ⟨.list (.range start stop step), position⟩ := by
    refine ⟨.node trivial fun c hc => ?_, rfl⟩
    simp only [NodeKind.children, ListLiteral.nodes, List.mem_cons, List.mem_append,
      Option.mem_toList] at hc
    rcases hc with rfl | hc | hc
    · exact hstart
    · exact hstop c hc
    · exact hstep c hc
  -- what comes behind the end, whether there is one or not
  have hrest {stop : Option Node} (hstop : ∀ n ∈ stop, n.WellFormed) :
      Yields (do
        let step ← if ← eat (.punctuator .comma) then do
            discard (eat .newline)
            some <$> g.unary
          else pure none
        discard (eat .newline)
        discard (expect (.punctuator .rightBracket))
        return (⟨.list (.range start stop step), position⟩ : Node)) Node.IsList := by
    refine .skip fun hasStep => .ite (fun _ => .skip fun _ => ?_) fun _ => ?_
    · exact hsome.bind fun step hstep => .skip fun _ => .skip fun _ => .pure (hbuilt hstop hstep)
    · exact hnone.bind fun step hstep => .skip fun _ => .skip fun _ => .pure (hbuilt hstop hstep)
  refine .skip fun atEnd => .ite (fun _ => ?_) fun _ => ?_
  · exact hnone.bind fun stop hstop => hrest hstop
  · exact hsome.bind fun stop hstop => hrest hstop

theorem yields_bracketContents (hg : g.WellFormed) : Yields (bracketContents g) Node.IsList := by
  have hitems (position : Position) :
      Yields (bracketItems position (list g.rounds g.expression)) Node.IsList :=
    yields_bracketItems (yields_list hg.expression)
  refine .skip fun position => .skip fun _ => .skip fun start => .skip fun t => ?_
  refine .ite (fun _ => hitems position) fun _ => hg.unary.attempt_bind (fun first hfirst => ?_) ?_
  · refine .skip fun isRange => .ite (fun _ => yields_rangeBehind hg hfirst position) fun _ => ?_
    refine .skip fun isItem => .ite (fun _ => ?_) fun _ => .skip fun _ => hitems position
    exact yields_bracketItems ((yields_listBehind hfirst hg.expression).weaken fun _ h => h.2)
  · exact fun _ => hitems position

theorem yields_bracket (hg : g.WellFormed) : Yields (bracket g) Node.IsList := by
  simp only [bracket, hg.forgetful, Bool.false_eq_true, if_false]
  exact yields_bracketContents hg

/-- The key and the value are well-formed. -/
def Pair.WellFormed (p : Pair) : Prop := p.key.WellFormed ∧ p.value.WellFormed

theorem yields_pair (hg : g.WellFormed) : Yields (pair g) Pair.WellFormed := by
  refine hg.expression.bind fun _ hkey => ?_
  refine .skip fun _ => ?_
  exact hg.expression.bind fun _ hvalue => .pure ⟨hkey, hvalue⟩

theorem forall_pair_nodes {pairs : List Pair} :
    (∀ c ∈ pairs.flatMap Pair.nodes, c.WellFormed) ↔ ∀ p ∈ pairs, p.WellFormed := by
  simp only [List.mem_flatMap, Pair.nodes, List.mem_cons, List.not_mem_nil, or_false]
  constructor
  · exact fun h p hp => ⟨h _ ⟨p, hp, .inl rfl⟩, h _ ⟨p, hp, .inr rfl⟩⟩
  · rintro h c ⟨p, hp, rfl | rfl⟩
    · exact (h p hp).1
    · exact (h p hp).2

/-- What braces give: a mapping of some pairs, or a block. -/
def NodeKind.IsBrace : NodeKind → Prop
  | .mapping pairs => pairs ≠ [] ∧ ∀ p ∈ pairs, p.WellFormed
  | .block items => ∀ n ∈ items, n.WellFormed
  | _ => False

theorem NodeKind.IsBrace.wellFormed {kind : NodeKind} (h : kind.IsBrace) (position : Position) :
    Node.WellFormed ⟨kind, position⟩ := by
  cases kind with
  | mapping pairs => exact .node h.1 (forall_pair_nodes.2 h.2)
  | block items => exact .node trivial h
  | _ => exact h.elim

theorem yields_brace (hg : g.WellFormed) : Yields (brace g) fun n => n.kind.IsBrace := by
  refine .skip fun position => .skip fun _ => .skip fun isEmpty => .ite (fun _ => ?_) fun _ => ?_
  · exact .pure (by simp [NodeKind.IsBrace])
  refine hg.expression.bind fun first hfirst => ?_
  refine .skip fun isMapping => ?_
  refine .ite (fun _ => ?_) fun _ => ?_
  · refine hg.expression.bind fun value hvalue => ?_
    refine (yields_listBehind ⟨hfirst, hvalue⟩ (yields_pair hg)).bind fun pairs hpairs => ?_
    exact .skip fun _ => .pure hpairs
  · exact (yields_listBehind hfirst hg.expression).bind fun items hitems =>
      .skip fun _ => .pure hitems.2

theorem yields_blockItems (hg : g.WellFormed) :
    Yields (blockItems g) fun ns => ∀ n ∈ ns, n.WellFormed := by
  refine .skip fun _ => ?_
  refine (yields_list hg.expression).bind fun _ hl => ?_
  exact .skip fun _ => .pure hl

theorem yields_block (hg : g.WellFormed) :
    Yields (block g) fun n => n.WellFormed ∧ n.kind.isBlock := by
  refine .skip fun _ => ?_
  exact (yields_blockItems hg).bind fun _ hns => .pure ⟨.node trivial hns, rfl⟩

theorem yields_parenthesized (hg : g.WellFormed) :
    Yields (parenthesized g) fun l => ∀ n ∈ l.1.items, n.WellFormed := by
  refine .skip fun _ => ?_
  refine (yields_list hg.expression).bind fun _ hl => ?_
  exact .skip fun _ => .pure hl

theorem yields_paren (hg : g.WellFormed) : Yields (paren g) Node.WellFormed := by
  refine (yields_parenthesized hg).bind fun l hitems => ?_
  match l with
  | (⟨[item], false⟩, _) => exact .pure (hitems item (List.mem_singleton_self _))
  | (⟨[], _⟩, position) => exact .pure (.node trivial hitems)
  | (⟨[_], true⟩, position) => exact .pure (.node trivial hitems)
  | (⟨_ :: _ :: _, _⟩, position) => exact .pure (.node trivial hitems)

theorem yields_tuple (hg : g.WellFormed) :
    Yields (tuple g) fun n => n.WellFormed ∧ n.kind.isMutable :=
  (yields_parenthesized hg).bind fun _ hitems => .pure ⟨.node trivial hitems, rfl⟩

/-! ### Operands -/

theorem yields_atom (hg : g.WellFormed) : Yields (atom g) Node.WellFormed := by
  refine .skip fun start => ?_
  split
  · exact (yields_brace hg).weaken fun ⟨_, position⟩ h => h.wellFormed position
  · exact (yields_bracket hg).weaken fun _ h => h.1
  · exact yields_paren hg
  · split
    · next t kind hkind =>
      refine .skip fun _ => .pure ?_
      unfold atomOf? at hkind
      split at hkind
      all_goals cases hkind
      all_goals exact .node trivial (by simp [NodeKind.children])
    · exact yields_failExpecting _

theorem yields_atom_string {t : PlacedToken} {value : String} (ht : t.token = .string value) :
    YieldsAt t (atom g) fun n => n.WellFormed ∧ n.kind.isMutable := by
  intro s n s' hs hrun
  simp only [atom, Bind.bind, EStateM.bind, peek, hs, ht, atomOf?] at hrun
  cases hrun
  exact ⟨.node trivial (by simp [NodeKind.children]), rfl⟩

/-- The value of the argument is well-formed. -/
def KeywordArgument.WellFormed (a : KeywordArgument) : Prop := a.value.WellFormed

theorem yields_keywordArgument (hg : g.WellFormed) :
    Yields (keywordArgument g) KeywordArgument.WellFormed := by
  refine .skip fun (_, _) => .skip fun _ => ?_
  exact hg.expression.bind fun _ h => .pure h

/-- The nodes inside a trailer are well-formed, and an index is a list. -/
def Trailer.WellFormed (t : Trailer) : Prop :=
  (∀ n ∈ t.nodes, n.WellFormed) ∧ ∀ operand, t = .index operand → operand.kind.isList

theorem yields_trailers (hg : g.WellFormed) {r : Nat} :
    Yields (trailers g r) fun ts => ∀ t ∈ ts, t.WellFormed := by
  induction r with
  | zero => exact .pure (by simp)
  | succ r ih =>
    -- one more trailer in front of the others
    have hmore {t : Trailer} (ht : t.WellFormed) :
        Yields (return t :: (← trailers g r)) fun ts => ∀ t ∈ ts, t.WellFormed :=
      ih.bind fun ts hts => .pure (List.forall_mem_cons.2 ⟨ht, hts⟩)
    refine .skip fun isAttribute => .ite (fun _ => .skip fun (name, _) => ?_) fun _ => ?_
    · exact hmore ⟨by simp [Trailer.nodes], by simp⟩
    refine .skip fun isCall => .ite (fun _ => ?_) fun _ => ?_
    · refine (yields_twoKindList (S := fun _ => True) hg.expression (yields_keywordArgument hg)
        ((yields_longer (.any _) (.any _)).weaken fun x hx => ?_)).bind
          fun (positional, keyword) h => .skip fun _ => hmore ⟨fun n hn => ?_, by simp⟩
      · cases x <;> trivial
      · simp only [Trailer.nodes, List.mem_append, List.mem_map] at hn
        rcases hn with hn | ⟨a, ha, rfl⟩
        · exact h.1 n hn
        · exact h.2.1 a ha
    refine .skip fun isIndex => .ite (fun _ => ?_) fun _ => .pure (by simp)
    refine (yields_bracket hg).bind fun operand h => hmore ⟨fun n hn => ?_, fun operand' heq => ?_⟩
    · obtain rfl := List.mem_singleton.1 hn
      exact h.1
    · cases heq
      exact h.2

theorem yields_primary (hg : g.WellFormed) : Yields (primary g) Node.WellFormed := by
  refine (yields_atom hg).bind fun base hbase => ?_
  refine (yields_trailers hg).bind fun ts hts => ?_
  match ts with
  | [] => exact .pure hbase
  | t :: ts =>
    refine .pure (.node ⟨List.cons_ne_nil _ _, fun operand h => (hts _ h).2 operand rfl⟩ ?_)
    intro c hc
    simp only [NodeKind.children, List.mem_cons (a := c), List.mem_flatMap] at hc
    rcases hc with rfl | ⟨t', ht', hc⟩
    · exact hbase
    · exact (hts t' ht').1 c hc

theorem yields_unary (hg : g.WellFormed) : Yields (unary g) Node.WellFormed := by
  refine .skip fun start => ?_
  split
  · refine .skip fun _ => hg.unary.bind fun n hn => .pure (.node trivial ?_)
    simpa [NodeKind.children] using hn
  · exact yields_primary hg

/-! ### Chains of operators -/

/-- The operators of a level that groups to the left take any number of operands, those of other
levels two. -/
def OperatorLevel.Sound (level : OperatorLevel) : Prop :=
  ∀ operator ∈ level.operators, operator.groupsRight = (level.associativity = .right)

instance (level : OperatorLevel) : Decidable level.Sound :=
  inferInstanceAs (Decidable (∀ operator ∈ level.operators, _))

theorem OperatorLevel.all_sound : ∀ level ∈ OperatorLevel.all, level.Sound := by decide

theorem OperatorLevel.belowMembership_sound :
    ∀ level ∈ OperatorLevel.belowMembership, level.Sound := by
  intro level h
  exact OperatorLevel.all_sound level (by simp [OperatorLevel.all, h])

/-- The operators behind an operand are among those of the level, and the operands behind them are
well-formed. -/
def ChainRest (level : OperatorLevel) (rest : List (BinaryOperator × Node)) : Prop :=
  ∀ x ∈ rest, x.1 ∈ level.operators ∧ x.2.WellFormed

theorem yields_operatorAmong (operators : List BinaryOperator) :
    Yields (operatorAmong operators) fun found => ∀ operator ∈ found, operator ∈ operators := by
  refine .skip fun t => .skip fun following => ?_
  split
  · refine .ite (fun h => .skip fun _ => .pure ?_) fun _ => .pure (by simp)
    simpa using h
  · exact .pure (by simp)

theorem yields_chainRest {level : OperatorLevel} {operand : Parser Node}
    (hoperand : Yields operand Node.WellFormed) {r : Nat} :
    Yields (chainRest level.operators operand r) (ChainRest level) := by
  induction r with
  | zero => exact .pure (by simp [ChainRest])
  | succ r ih =>
    refine (yields_operatorAmong level.operators).bind fun found hfound => ?_
    match found with
    | none => exact .pure (by simp [ChainRest])
    | some operator =>
      refine hoperand.bind fun right hright => ?_
      refine ih.bind fun rest hrest => .pure ?_
      exact List.forall_mem_cons.2 ⟨⟨hfound operator rfl, hright⟩, hrest⟩

theorem groupRun_wellFormed {level : OperatorLevel} (hlevel : level.Sound)
    (hleft : level.associativity = .left) (position : Position)
    {rest : List (BinaryOperator × Node)} (hrest : ChainRest level rest) {operator : BinaryOperator}
    (hoperator : operator ∈ level.operators) {run : List Node} (hlength : 2 ≤ run.length)
    (hrun : ∀ n ∈ run, n.WellFormed) :
    (OperatorLevel.groupRun position operator run rest).WellFormed := by
  -- the run so far
  have hbinary {operator : BinaryOperator} (hoperator : operator ∈ level.operators)
      {run : List Node} (hlength : 2 ≤ run.length) (hrun : ∀ n ∈ run, n.WellFormed) :
      Node.WellFormed ⟨.binary operator run, position⟩ := by
    refine .node ?_ hrun
    have hgroups := hlevel operator hoperator
    simp only [hleft, reduceCtorEq, eq_iff_iff, iff_false] at hgroups
    simpa [NodeKind.WellShaped, hgroups] using hlength
  induction rest generalizing operator run with
  | nil => exact hbinary hoperator hlength hrun
  | cons x rest ih =>
    obtain ⟨next, operand⟩ := x
    obtain ⟨⟨hnext, hoperand⟩, hrest⟩ := List.forall_mem_cons.1 hrest
    unfold OperatorLevel.groupRun
    split
    · refine ih hrest hoperator (by simp; omega) fun n hn => ?_
      rcases List.mem_append.1 hn with hn | hn
      · exact hrun n hn
      · rwa [List.mem_singleton.1 hn]
    · refine ih hrest hnext (Nat.le_refl 2) fun n hn => ?_
      simp only [List.mem_cons, List.not_mem_nil, or_false] at hn
      rcases hn with rfl | rfl
      · exact hbinary hoperator hlength hrun
      · exact hoperand

theorem groupRight_wellFormed {level : OperatorLevel} (hlevel : level.Sound)
    (hright : level.associativity = .right) {first : Node} (hfirst : first.WellFormed)
    {rest : List (BinaryOperator × Node)} (hrest : ChainRest level rest) :
    (OperatorLevel.groupRight first rest).WellFormed := by
  induction rest generalizing first with
  | nil => exact hfirst
  | cons x rest ih =>
    obtain ⟨operator, operand⟩ := x
    obtain ⟨⟨hoperator, hoperand⟩, hrest⟩ := List.forall_mem_cons.1 hrest
    have hgroups := hlevel operator hoperator
    simp only [hright, eq_iff_iff, iff_true] at hgroups
    refine .node (by simp [NodeKind.WellShaped, hgroups]) fun c hc => ?_
    simp only [NodeKind.children, List.mem_cons, List.not_mem_nil, or_false] at hc
    rcases hc with rfl | rfl
    · exact hfirst
    · exact ih hoperand hrest

theorem group_wellFormed {level : OperatorLevel} (hlevel : level.Sound) {first : Node}
    (hfirst : first.WellFormed) {rest : List (BinaryOperator × Node)}
    (hrest : ChainRest level rest) : (level.group first rest).WellFormed := by
  unfold OperatorLevel.group
  split
  · next hleft =>
    match rest with
    | [] => exact hfirst
    | (operator, operand) :: rest =>
      obtain ⟨⟨hoperator, hoperand⟩, hrest⟩ := List.forall_mem_cons.1 hrest
      refine groupRun_wellFormed hlevel hleft _ hrest hoperator (Nat.le_refl 2) fun n hn => ?_
      simp only [List.mem_cons, List.not_mem_nil, or_false] at hn
      rcases hn with rfl | rfl
      · exact hfirst
      · exact hoperand
  · next hright => exact groupRight_wellFormed hlevel hright hfirst hrest

theorem yields_cascade {operand : Parser Node} (hoperand : Yields operand Node.WellFormed) {r : Nat}
    {levels : List OperatorLevel} (hlevels : ∀ level ∈ levels, level.Sound) :
    Yields (cascade r operand levels) Node.WellFormed := by
  induction levels with
  | nil => exact hoperand
  | cons level levels ih =>
    obtain ⟨hlevel, hlevels⟩ := List.forall_mem_cons.1 hlevels
    refine (ih hlevels).bind fun first hfirst => ?_
    exact (yields_chainRest (ih hlevels)).bind fun rest hrest =>
      .pure (group_wellFormed hlevel hfirst hrest)

end DrakeSyntax
