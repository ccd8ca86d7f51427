import DrakeSyntax.Proofs.OperatorTree
import DrakeSyntax.Proofs.Runs.Head
import DrakeSyntax.Proofs.Runs.Session

/-!
# Precedence and associativity

An operator tree that is written with parentheses only where they are needed is read as that
tree. So the levels of operators (`OperatorLevel.all`) are in the order of
`BinaryOperator.precedence`, and each of them groups as it should.

* `OperatorTree.readable`: what a tree is written as is read with the level of its operator.
* `expression_words`: **an operator tree is read from the tokens it is written as.**
-/

namespace DrakeSyntax

open DrakeSyntax.Parser

namespace OperatorTree

/-! ### What trees begin with -/

theorem opening_operand {bare : Bool} {t : OperatorTree} (ht : (∃ x, t = name x) ∨ Opening t.words)
    (hbare : (∃ x, t = name x) → bare = true) (op : BinaryOperator) (l : List Token) :
    Opening (parensUnless bare t.words ++ (op.tokens ++ l)) := by
  cases bare with
  | true =>
    rcases ht with ⟨x, rfl⟩ | ht
    · simp only [parensUnless, words, if_true]
      cases op
      all_goals exact .name rfl rfl (by simp)
    · exact ht.append _
  | false =>
    rcases ht with ht | ht
    · cases hbare ht
    · exact (Opening.paren (ht.append _)).append _

/-- A tree that is no name begins like an expression without a head. -/
theorem opening_words (t : OperatorTree) : (∃ x, t = name x) ∨ Opening t.words := by
  induction t using induct with
  | name x => exact .inl ⟨x, rfl⟩
  | literal value =>
    rw [words]
    cases value with
    | boolean value =>
      cases value
      all_goals exact .inr (.plain rfl rfl rfl)
    | string | number | none => exact .inr (.plain rfl rfl rfl)
  | unary operator operand =>
    rw [words]
    cases operator
    all_goals exact .inr (.plain rfl rfl rfl)
  | left operator groups first second more ihFirst =>
    rw [words, List.append_assoc, List.append_assoc]
    refine .inr (opening_operand ihFirst ?_ operator _)
    rintro ⟨x, rfl⟩
    rfl
  | right operator groups first second ihFirst =>
    rw [words]
    refine .inr (opening_operand ihFirst ?_ operator _)
    rintro ⟨x, rfl⟩
    rfl

theorem words_opensItem (t : OperatorTree) : Ahead Token.opensItem t.words := by
  rcases t.opening_words with ⟨x, rfl⟩ | h
  · rw [words]
    rfl
  · exact h.opensItem

theorem words_opensOperand (t : OperatorTree) : Ahead Token.opensOperand t.words := by
  have hoperand {bare : Bool} {t : OperatorTree} (ht : Ahead Token.opensOperand t.words)
      (l : List Token) : Ahead Token.opensOperand (parensUnless bare t.words ++ l) := by
    cases bare with
    | true => exact ht.append l
    | false => rfl
  induction t using induct with
  | name x =>
    rw [words]
    rfl
  | literal value =>
    rw [words]
    cases value with
    | boolean value => cases value <;> rfl
    | string | number | none => rfl
  | unary operator operand =>
    rw [words]
    cases operator <;> rfl
  | left operator groups first second more ihFirst =>
    rw [words, List.append_assoc]
    exact hoperand ihFirst _
  | right operator groups first second ihFirst =>
    rw [words]
    exact hoperand ihFirst _

theorem headless_words (t : OperatorTree) {g : Inner} {k : List Token}
    (hk : Ahead Token.endsItem k) : Headless g (t.words ++ k) := by
  rcases t.opening_words with ⟨x, rfl⟩ | h
  · obtain ⟨u, k, rfl, hu⟩ := hk.exists_cons
    rw [words]
    exact headless_name (assignmentOperator?_of_endsItem hu)
  · exact (h.append k).headless

/-! ### Trees are read -/

/-- How tight the operator of the tree binds. Names, literals and unary operators are tighter than
all binary operators. -/
def tightness (t : OperatorTree) : Nat := t.operator?.elim 14 BinaryOperator.precedence

/-- At a depth, the tree is read with the level of its operator. -/
def Readable (t : OperatorTree) (depth : Nat) : Prop :=
  ReadsOperand (cascade depth (Parser.unary (phrases depth)) (levelsFrom t.tightness))
    (levelsFrom t.tightness) ⟨t.words, t.node⟩

variable {t : OperatorTree} {depth : Nat}

/-- A tree is an expression. -/
theorem Readable.expression (h : t.Readable depth) {k : List Token} (hk : Ahead Token.endsItem k) :
    Reads (expressionWith (phrases depth)) (t.words ++ k) k fun n => n.same t.node := by
  have hall : ReadsOperand (cascade (phrases depth).rounds (Parser.unary (phrases depth))
      OperatorLevel.all) OperatorLevel.all ⟨t.words, t.node⟩ := by
    rw [phrases_rounds]
    exact readsOperand_levelsFrom (Nat.zero_le _) h
  exact reads_operandExpression hall t.words_opensOperand (endsOperand_of_endsItem _ hk)
    (t.headless_words hk)

theorem length_parensUnless (bare : Bool) (w : List Token) :
    w.length ≤ (parensUnless bare w).length ∧
      (bare = false → w.length + 2 = (parensUnless bare w).length) := by
  cases bare
  · simp [parensUnless, inParens]
    omega
  · simp [parensUnless]

/-- A tree is an operand: in parentheses of any level, else of the levels that its own level
allows. -/
theorem readsOperand_operand (ht : ∀ depth, t.words.length ≤ depth → t.Readable depth)
    {bare : Bool} {i : Nat} (hi : i ≤ 14) (hbare : bare = true → i ≤ t.tightness)
    (hdepth : (parensUnless bare t.words).length ≤ depth) :
    ReadsOperand (cascade depth (Parser.unary (phrases depth)) (levelsFrom i)) (levelsFrom i)
      (t.operand bare) := by
  obtain ⟨hle, hparens⟩ := length_parensUnless bare t.words
  cases bare with
  | true => exact readsOperand_levelsFrom (hbare rfl) (ht depth (Nat.le_trans hle hdepth))
  | false =>
    have hlength := hparens rfl
    obtain ⟨depth, rfl⟩ : ∃ d, depth = d + 1 := ⟨depth - 1, by omega⟩
    -- the parentheses leave a level of depth for the tree inside
    have hinside := ht depth (by omega)
    refine readsOperand_levelsFrom hi (j := 14) ?_
    exact readsOperand_group (g := phrases (depth + 1)) (by simp) t.words_opensItem
      fun k hk => hinside.expression hk

/-- An operator and the operand behind it in a chain of the precedence `i`. -/
structure OnLevel (i depth : Nat) (x : BinaryOperator × Operand) : Prop where
  precedence : x.1.precedence = i
  separate : ∀ k, x.1.Separate (x.2.words ++ k)
  reads : ReadsOperand (cascade depth (Parser.unary (phrases depth)) (levelsFrom (i + 1)))
    (levelsFrom (i + 1)) x.2

/-- All operands of a chain of the precedence `i` are read by the levels that bind tighter. -/
structure ChainOn (i depth : Nat) (c : Operand × List (BinaryOperator × Operand)) : Prop where
  first : ReadsOperand (cascade depth (Parser.unary (phrases depth)) (levelsFrom (i + 1)))
    (levelsFrom (i + 1)) c.1
  rest : ∀ x ∈ c.2, OnLevel i depth x

theorem lt_tightness {op : BinaryOperator} (h : isTighter op t) : op.precedence < t.tightness := by
  unfold isTighter at h
  unfold tightness
  cases hop : t.operator? with
  | none => exact precedence_lt op
  | some op' => simpa [hop] using h

theorem length_le_chainWords (rest : List (BinaryOperator × Operand)) :
    rest.length ≤ (chainWords rest).length := by
  induction rest with
  | nil => exact Nat.le_refl 0
  | cons x rest ih =>
    have hop : 0 < x.1.tokens.length := by cases x.1 <;> decide
    simp only [chainWords, List.flatMap_cons, List.length_append, List.length_cons] at ih ⊢
    omega

/-- A tree is read as the chain of its operands. -/
theorem readable_of_chainOn {op : BinaryOperator} (hop : t.operator? = some op)
    (hchain : ChainOn op.precedence depth t.chainOf) (hdepth : t.words.length ≤ depth) :
    t.Readable depth := by
  obtain ⟨level, hlevels, hapart, hassociativity, hmem⟩ := precedence_level op
  have hrest : ∀ x ∈ t.chainOf.2, InChain (cascade depth (Parser.unary (phrases depth))
      (levelsFrom (op.precedence + 1))) level (levelsFrom (op.precedence + 1)) x := by
    intro x hx
    obtain ⟨hprecedence, hseparate, hreads⟩ := hchain.rest x hx
    exact ⟨hmem x.1 hprecedence, hseparate, hreads⟩
  -- as many rounds as there are operands
  have hlength : t.chainOf.2.length ≤ depth := by
    have hwords := congrArg List.length t.chainOf_words
    have hle := length_le_chainWords t.chainOf.2
    rw [List.length_append] at hwords
    omega
  have hread := readsOperand_chain hapart hchain.first hrest hlength
  -- grouping the chain gives the tree back
  have hnode : level.group t.chainOf.1.node (chainNodes t.chainOf.2) = t.node := by
    unfold OperatorLevel.group
    rw [hassociativity]
    cases hgroups : op.groupsRight with
    | true => exact chainOf_groupRight hop hgroups
    | false => exact chainOf_groupLeft hop hgroups
  rw [t.chainOf_words, hnode] at hread
  have htightness : t.tightness = op.precedence := by simp [tightness, hop]
  unfold Readable
  rw [htightness, hlevels]
  exact hread

theorem onLevel_operandBehind (ht : ∀ depth, t.words.length ≤ depth → t.Readable depth)
    {op : BinaryOperator}
    (hdepth : (parensUnless (isBareBehind op t t.words) t.words).length ≤ depth) :
    OnLevel op.precedence depth (op, operandBehind op t) where
  precedence := rfl
  separate k := by
    rintro rfl
    obtain ⟨u, w, hw, hu⟩ := t.words_opensItem.exists_cons
    simp only [operandBehind, operand]
    -- what stands bare behind `is` does not begin with `not`
    cases hbare : isBareBehind .is t t.words with
    | true =>
      simp only [isBareBehind, hw, Bool.and_eq_true] at hbare
      simpa [parensUnless, hw] using hbare.2
    | false => simp [parensUnless, inParens]
  reads := by
    refine readsOperand_operand ht (precedence_lt op) (fun hbare => ?_) hdepth
    simp only [isBareBehind, Bool.and_eq_true] at hbare
    exact lt_tightness hbare.1

theorem length_le_wordsBehind (op : BinaryOperator) {ts : List OperatorTree} (ht : t ∈ ts) :
    (parensUnless (isBareBehind op t t.words) t.words).length ≤ (wordsBehind op ts).length := by
  induction ts with
  | nil => cases ht
  | cons t' ts ih =>
    simp only [wordsBehind, List.length_append]
    rcases List.mem_cons.1 ht with rfl | ht
    · omega
    · have := ih ht
      omega

/-- At every depth that its tokens fit in, the tree is read with the level of its operator, as the
chain of its operands on that level. -/
def AlwaysReadable (t : OperatorTree) : Prop :=
  ∀ depth, t.words.length ≤ depth →
    t.Readable depth ∧ ∀ op ∈ t.operator?, ChainOn op.precedence depth t.chainOf

variable {op : BinaryOperator} {first second : OperatorTree}

/-- The operands of an operator that groups to the left. -/
theorem chainOn_left {groups : op.groupsRight = false} {more : List OperatorTree}
    (hfirst : first.AlwaysReadable) (hsecond : second.AlwaysReadable)
    (hmore : ∀ t ∈ more, t.AlwaysReadable)
    (hdepth : (left op groups first second more).words.length ≤ depth) :
    ChainOn op.precedence depth (left op groups first second more).chainOf := by
  rw [words] at hdepth
  simp only [List.length_append] at hdepth
  have hbehind : ∀ x ∈ (op, operandBehind op second) :: more.map fun t => (op, operandBehind op t),
      OnLevel op.precedence depth x := by
    refine List.forall_mem_cons.2 ⟨?_, List.forall_mem_map.2 fun t ht => ?_⟩
    · exact onLevel_operandBehind (fun depth h => (hsecond depth h).1) (by omega)
    · have hlength := length_le_wordsBehind op ht
      exact onLevel_operandBehind (fun depth h => (hmore t ht depth h).1) (by omega)
  unfold chainOf
  cases hsibling : isSibling op first with
  | true =>
    -- the chain of the first operand goes on with the operands behind it
    rw [hsibling, Bool.or_true] at hdepth
    have hlength : first.words.length ≤ depth := by
      simp only [parensUnless, if_true] at hdepth
      omega
    simp only [isSibling, Option.any_eq_true, Bool.and_eq_true, beq_iff_eq] at hsibling
    obtain ⟨op', hop, hprecedence, -⟩ := hsibling
    have hstart := (hfirst depth hlength).2 op' hop
    rw [hprecedence] at hstart
    refine ⟨hstart.first, fun x hx => ?_⟩
    rcases List.mem_append.1 hx with hx | hx
    · exact hstart.rest x hx
    · exact hbehind x hx
  | false =>
    rw [hsibling, Bool.or_false] at hdepth
    have hlength : (parensUnless (isTighter op first) first.words).length ≤ depth := by omega
    have hoperand := readsOperand_operand (fun depth h => (hfirst depth h).1) (precedence_lt op)
      lt_tightness hlength
    exact ⟨hoperand, by simpa using hbehind⟩

/-- The operands of an operator that groups to the right. -/
theorem chainOn_right {groups : op.groupsRight = true} (hfirst : first.AlwaysReadable)
    (hsecond : second.AlwaysReadable)
    (hdepth : (right op groups first second).words.length ≤ depth) :
    ChainOn op.precedence depth (right op groups first second).chainOf := by
  rw [words] at hdepth
  simp only [List.length_append] at hdepth
  have hseparate (l : List Token) : op.Separate l := by
    -- `is` groups to the left
    rintro rfl
    cases groups
  have hlength : (parensUnless (isTighter op first) first.words).length ≤ depth := by omega
  have hoperand := readsOperand_operand (fun depth h => (hfirst depth h).1) (precedence_lt op)
    lt_tightness hlength
  unfold chainOf
  refine ⟨hoperand, ?_⟩
  cases hlevel : isLevel op second with
  | true =>
    -- the chain goes on with the chain of the second operand
    rw [hlevel, Bool.or_true] at hdepth
    have hlength : second.words.length ≤ depth := by
      simp only [parensUnless, if_true] at hdepth
      omega
    simp only [isLevel, Option.any_eq_true, beq_iff_eq] at hlevel
    obtain ⟨op', hop, hprecedence⟩ := hlevel
    have hstart := (hsecond depth hlength).2 op' hop
    rw [hprecedence] at hstart
    exact List.forall_mem_cons.2 ⟨⟨rfl, fun k => hseparate _, hstart.first⟩, hstart.rest⟩
  | false =>
    rw [hlevel, Bool.or_false] at hdepth
    refine List.forall_mem_cons.2 ⟨⟨rfl, fun k => hseparate _, ?_⟩, by simp⟩
    exact readsOperand_operand (fun depth h => (hsecond depth h).1) (precedence_lt op)
      lt_tightness (by omega)

/-- **Every tree is read with the level of its operator**, as the chain of its operands on that
level. -/
theorem readable (t : OperatorTree) : t.AlwaysReadable := by
  induction t using induct with
  | name x =>
    intro depth hdepth
    refine ⟨?_, by simp [operator?]⟩
    exact readsOperand_token (t := .identifier x) rfl .start
  | literal value =>
    intro depth hdepth
    refine ⟨?_, by simp [operator?]⟩
    exact readsOperand_token (atomOf?_literal value) .start
  | unary operator operand ih =>
    intro depth hdepth
    refine ⟨?_, by simp [operator?]⟩
    rw [words, List.length_cons] at hdepth
    obtain ⟨depth, rfl⟩ : ∃ d, depth = d + 1 := ⟨depth - 1, by omega⟩
    -- only an operand without a binary operator stands bare
    have htight : operand.operator?.isNone = true → 14 ≤ operand.tightness := by
      intro hnone
      simp only [Option.isNone_iff_eq_none] at hnone
      simp [tightness, hnone]
    have hoperand : ReadsOperand (phrases (depth + 1)).unary []
        (operand.operand operand.operator?.isNone) :=
      readsOperand_operand (i := 14) (fun depth h => (ih depth h).1) (Nat.le_refl _) htight
        (Nat.le_of_succ_le_succ hdepth)
    exact readsOperand_unary hoperand operator .start
  | left operator groups first second more ihFirst ihSecond ihMore =>
    intro depth hdepth
    have hchain := chainOn_left ihFirst ihSecond ihMore hdepth
    refine ⟨readable_of_chainOn rfl hchain hdepth, fun op hop => ?_⟩
    cases hop
    exact hchain
  | right operator groups first second ihFirst ihSecond =>
    intro depth hdepth
    have hchain := chainOn_right ihFirst ihSecond hdepth
    refine ⟨readable_of_chainOn rfl hchain hdepth, fun op hop => ?_⟩
    cases hop
    exact hchain

end OperatorTree

/-- **Precedence and associativity.** From the tokens that an operator tree is written as, with
parentheses only where they are needed, and the end of the input, a parser reads an expression
that is the tree, and nothing but the end of the input is left. -/
theorem expression_words (t : OperatorTree) {ts : List PlacedToken}
    (hts : ts.map (·.token) = t.words ++ [.endOfInput]) :
    ∃ n s, Parser.expression (.ofTokens ts) = .ok n s ∧ n.same t.node ∧
      s.tokens = [.endOfInput] ∧ s.cursor.index = t.words.length := by
  have hlength : t.words.length ≤ ts.length := by
    have h := congrArg List.length hts
    simp only [List.length_map, List.length_append] at h
    omega
  refine expression_of_reads hts ?_
  exact (t.readable ts.length hlength).1.expression rfl

/-- `a - b + c is (not d)` is read as `is` of a sum, whose first operand is a difference, and a
negation. -/
theorem expression_words_is_not :
    ∃ n s, Parser.expression (.ofTokens ([.identifier "a", .punctuator .minus, .identifier "b",
        .punctuator .plus, .identifier "c", .keyword .is, .punctuator .leftParen, .keyword .not,
        .identifier "d", .punctuator .rightParen, .endOfInput].map (⟨·, .start⟩))) = .ok n s ∧
      n.same (OperatorTree.left .is rfl
        (.left .add rfl (.left .subtract rfl (.name "a") (.name "b") []) (.name "c") [])
        (.unary .not (.name "d")) []).node ∧
      s.tokens = [.endOfInput] ∧ s.cursor.index = 10 :=
  expression_words (.left .is rfl
    (.left .add rfl (.left .subtract rfl (.name "a") (.name "b") []) (.name "c") [])
    (.unary .not (.name "d")) []) rfl

end DrakeSyntax
