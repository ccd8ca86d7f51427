import DrakeSyntax.Proofs.Progress
import DrakeSyntax.Proofs.Separators.Atom

/-!
# Where a node begins

A node begins at the first of its tokens unless that token is the parenthesis of a group. An
expression in parentheses keeps its own place, and what goes on behind the group, with a trailer or
an operator, begins where the expression inside does (`Begins`).

* `position_cascade`: a chain of operators begins where its first operand does.
* `ParserState.Among.position_expression`: **an expression begins at the token of the cursor, or
  where the expression of a group at the cursor does**, also if the group is only the beginning of
  it (`ParserState.Among.not_position_eq`).
-/

namespace DrakeSyntax

open DrakeSyntax.Parser

/-- The cursor behind a line break, if it is at one. -/
def Cursor.pastBreak (c : Cursor) : Cursor := if c.current.token = .newline then c.advance else c

/-- The places where something that is read at the cursor can begin: at its token, or where an
expression in parentheses does, which `p` reads. -/
inductive Begins (p : Parser Node) (c : Cursor) : Position → Prop
  | token : Begins p c c.current.position
  | group {s s' : ParserState} {n : Node} (opens : c.current.token = .punctuator .leftParen)
    (start : s.cursor = c.advance.pastBreak) (inside : p s = .ok n s')
    (closes : s'.cursor.pastBreak.current.token = .punctuator .rightParen) :
    Begins p c n.position

/-- Every result that the parser gives from the cursor on has the property. -/
def YieldsFrom {α : Type} (c : Cursor) (p : Parser α) (Q : α → Prop) : Prop :=
  ∀ s a s', s.cursor = c → p s = .ok a s' → Q a

section Rules

variable {α β : Type} {c : Cursor} {t : PlacedToken} {p : Parser α} {f : α → Parser β}
variable {Q : α → Prop} {R : β → Prop}

theorem YieldsAt.expect_bind {k : Token} {f : Position → Parser β} (hf : Yields (f t.position) R) :
    YieldsAt t (expect k >>= f) R := by
  intro s b s' hs hrun
  by_cases hat : s.cursor.current.token = k
  · rw [bind_of_ok (expect_of_eq hat), hs] at hrun
    exact hf _ b s' hrun
  · rw [bind_of_error (expect_of_ne hat)] at hrun
    cases hrun

theorem YieldsAt.peek_bind {f : PlacedToken → Parser β} (hf : YieldsAt t (f t) R) :
    YieldsAt t (peek >>= f) R := by
  intro s b s' hs hrun
  rw [bind_of_ok (rfl : peek s = .ok s.cursor.current s), hs] at hrun
  exact hf s b s' hs hrun

theorem YieldsAt.bind (hp : YieldsAt t p Q) (hf : ∀ a, Q a → Yields (f a) R) :
    YieldsAt t (p >>= f) R := by
  intro s b s' hs hrun
  obtain ⟨a, s₁, ha, hb⟩ := bind_eq_ok hrun
  exact hf a (hp s a s₁ hs ha) s₁ b s' hb

namespace YieldsFrom

theorem of_at (hp : YieldsAt c.current p Q) : YieldsFrom c p Q := by
  intro s a s' hs hrun
  exact hp s a s' (congrArg Cursor.current hs) hrun

theorem of_yields (hp : Yields p Q) : YieldsFrom c p Q := of_at hp.at

theorem bind (hp : YieldsFrom c p Q) (hf : ∀ a, Q a → Yields (f a) R) :
    YieldsFrom c (p >>= f) R := by
  intro s b s' hs hrun
  obtain ⟨a, s₁, ha, hb⟩ := bind_eq_ok hrun
  exact hf a (hp s a s₁ hs ha) s₁ b s' hb

theorem peek_bind {f : PlacedToken → Parser β} (hf : YieldsFrom c (f c.current) R) :
    YieldsFrom c (peek >>= f) R := by
  intro s b s' hs hrun
  rw [bind_of_ok (rfl : peek s = .ok s.cursor.current s), hs] at hrun
  exact hf s b s' hs hrun

/-- A trial that fails leaves the cursor where it is. -/
theorem attemptIf_bind {condition : Bool} {f : Option α → Parser β}
    (hsome : ∀ a, Yields (f (some a)) R) (hnone : YieldsFrom c (f none) R) :
    YieldsFrom c (attemptIf condition p >>= f) R := by
  intro s b s' hs hrun
  cases condition with
  | false => exact hnone s b s' hs hrun
  | true =>
    simp only [attemptIf, if_true, bind_assoc, pure_bind] at hrun
    cases hp : p s with
    | ok a s₁ =>
      rw [bind_of_ok (attempt_of_ok hp)] at hrun
      exact hsome a s₁ b s' hrun
    | error e s₁ =>
      rw [bind_of_ok (attempt_of_error hp)] at hrun
      exact hnone { s₁ with cursor := s.cursor } b s' hs hrun

end YieldsFrom

end Rules

variable {g : Inner} {c : Cursor} {t : PlacedToken}

/-! ### What begins at its first token -/

theorem position_bracketItems (position : Position) (items : Parser (ItemList Node)) :
    Yields (bracketItems position items) (·.position = position) :=
  .skip fun _ => .skip fun _ => .pure rfl

theorem position_rangeBehind (start : Node) (position : Position) :
    Yields (rangeBehind g start position) (·.position = position) := by
  -- the end of the range, whether it has a stop and a step or not
  have hrest (stop : Option Node) : Yields (do
      let step ← if ← eat (.punctuator .comma) then do
          discard (eat .newline)
          some <$> g.unary
        else pure none
      discard (eat .newline)
      discard (expect (.punctuator .rightBracket))
      return (⟨.list (.range start stop step), position⟩ : Node)) (·.position = position) := by
    refine .skip fun hasStep => .ite (fun _ => .skip fun _ => ?_) fun _ => ?_
    · exact .skip fun _ => .skip fun _ => .skip fun _ => .pure rfl
    · exact .skip fun _ => .skip fun _ => .skip fun _ => .pure rfl
  refine .skip fun atEnd => .ite (fun _ => ?_) fun _ => ?_
  · exact .skip fun stop => hrest stop
  · exact .skip fun stop => hrest stop

theorem position_bracketContents : YieldsAt t (bracketContents g) (·.position = t.position) := by
  refine YieldsAt.expect_bind (.skip fun _ => .skip fun start => .skip fun first => ?_)
  have hlist := position_bracketItems t.position (list g.rounds g.expression)
  refine .ite (fun _ => hlist) fun _ => .skip fun outcome => ?_
  cases outcome with
  | error e => exact hlist
  | ok first =>
    refine .skip fun isRange => .ite (fun _ => position_rangeBehind first _) fun _ => ?_
    refine .skip fun isItem => .ite (fun _ => position_bracketItems _ _) fun _ => ?_
    exact .skip fun _ => hlist

theorem position_bracket (hg : g.remembers = false) :
    YieldsAt t (bracket g) (·.position = t.position) := by
  simp only [bracket, hg, Bool.false_eq_true, if_false]
  exact position_bracketContents

theorem position_brace : YieldsAt t (brace g) (·.position = t.position) := by
  refine YieldsAt.expect_bind (.skip fun _ => .skip fun isEmpty => .ite (fun _ => .pure rfl) ?_)
  refine fun _ => .skip fun first => .skip fun isMapping => .ite (fun _ => ?_) fun _ => ?_
  · exact .skip fun value => .skip fun pairs => .skip fun _ => .pure rfl
  · exact .skip fun items => .skip fun _ => .pure rfl

theorem position_declaration : YieldsAt t (declaration g) (·.position = t.position) := by
  refine YieldsAt.peek_bind (Yields.at ?_)
  exact .skip fun constant => .skip fun hint => .skip fun name => .pure rfl

theorem position_lambdaBody (head : LambdaHead) (position : Position) :
    Yields (lambdaBody g head position) (·.position = position) :=
  .skip fun _ => .pure rfl

theorem position_assignmentValue (head : AssignmentHead) (position : Position) :
    Yields (assignmentValue g head position) (·.position = position) := by
  refine .ite (fun _ => yields_rejectAt _ _) fun _ => ?_
  exact .ite (fun _ => yields_rejectAt _ _) fun _ => .skip fun value => .pure rfl

theorem position_tryForm : YieldsAt t (tryForm g) (·.position = t.position) := by
  refine YieldsAt.expect_bind (.skip fun body => .skip fun hs => .skip fun cleanup => ?_)
  exact .ite (fun _ => yields_reject _) fun _ => .pure rfl

theorem position_iterForm : YieldsAt t (iterForm g) (·.position = t.position) := by
  have hoperand {p : Parser Node} : Yields (do return (⟨.iter (← p), t.position⟩ : Node))
      (·.position = t.position) := .skip fun operand => .pure rfl
  refine YieldsAt.expect_bind (.skip fun first => ?_)
  dsimp only
  split
  all_goals exact hoperand

theorem position_mutableForm : YieldsAt t (mutableForm g) (·.position = t.position) := by
  have hoperand {p : Parser Node} : Yields (do return (⟨.mutable (← p), t.position⟩ : Node))
      (·.position = t.position) := .skip fun operand => .pure rfl
  refine YieldsAt.expect_bind (.skip fun first => ?_)
  dsimp only
  split
  all_goals exact hoperand

theorem position_yieldForm : YieldsAt t (yieldForm g) (·.position = t.position) := by
  refine YieldsAt.expect_bind (.skip fun isFrom => .ite (fun _ => ?_) fun _ => ?_)
  · exact .skip fun source => .pure rfl
  · exact .skip fun value => .pure rfl

/-- **A form begins at its keyword.** -/
theorem position_form {k : Keyword} {form : Parser Node} (hform : form? g k = some form) :
    YieldsAt t form (·.position = t.position) := by
  cases k
  all_goals cases hform
  case if_ =>
    refine YieldsAt.expect_bind (.skip fun condition => .skip fun _ => .skip fun _ => ?_)
    exact .skip fun consequence => .skip fun otherwise => .pure rfl
  case case =>
    refine YieldsAt.expect_bind (.skip fun subject => .skip fun _ => ?_)
    exact .skip fun pairs => .skip fun otherwise => .pure rfl
  case try_ => exact position_tryForm
  case for_ =>
    refine YieldsAt.expect_bind (.skip fun ts => .skip fun _ => ?_)
    exact .skip fun iterable => .skip fun body => .pure rfl
  case while_ => exact YieldsAt.expect_bind (.skip fun condition => .skip fun body => .pure rfl)
  case iter => exact position_iterForm
  case enum =>
    refine YieldsAt.expect_bind (.skip fun flags => .skip fun _ => ?_)
    exact .skip fun members => .skip fun _ => .pure rfl
  case mutable => exact position_mutableForm
  case throw | return_ => exact YieldsAt.expect_bind (.skip fun value => .pure rfl)
  case yield => exact position_yieldForm
  case do_ | object | module_ | exception =>
    exact YieldsAt.expect_bind (.skip fun items => .pure rfl)
  case break_ | continue_ | pass => exact YieldsAt.expect_bind (.pure rfl)

/-! ### What begins where its first part does -/

theorem Begins.of_eq {p : Parser Node} {q : Position} (h : q = c.current.position) :
    Begins p c q := h ▸ .token

/-- Behind the only item of a list without a comma there is a line break at most. -/
theorem listFrom_eq_one {p : Parser Node} {r : Nat} {separator : Option Separator} {last n : Node}
    {s s' : ParserState} (h : listFrom (fun _ => p) r separator last s = .ok ⟨[n], false⟩ s') :
    n = last ∧ (s' = s ∨ s.cursor.current.token = .newline ∧
      s' = { s with cursor := s.cursor.advance }) := by
  cases r with
  | zero =>
    cases h
    exact ⟨rfl, .inl rfl⟩
  | succ r =>
    -- with one more item there are two at least
    have hmore {separator : Option Separator} {s : ParserState} (h : (do
        let next ← p
        return (← listFrom (fun _ => p) r separator next).cons last : Parser (ItemList Node)) s =
          .ok ⟨[n], false⟩ s') : False := by
      obtain ⟨next, s₁, -, h⟩ := bind_eq_ok h
      obtain ⟨l, s₂, hl, h⟩ := bind_eq_ok h
      have hcons : l.cons last = ⟨[n], false⟩ := (EStateM.Result.ok.inj h).1
      obtain ⟨more, hitems, -⟩ := yields_listFrom (fun _ => Yields.any p) _ _ s₁ l s₂ hl
      have hlength := congrArg (·.items.length) hcons
      simp [ItemList.cons, hitems] at hlength
    unfold listFrom at h
    rw [bind_of_ok (isAt_run _ s)] at h
    by_cases hcomma : s.cursor.current.token = .punctuator .comma
    · rw [beq_iff_eq.2 hcomma, if_pos rfl] at h
      split at h
      · cases h
      · simp only [discard_bind] at h
        obtain ⟨_, s₁, -, h⟩ := bind_eq_ok h
        obtain ⟨_, s₂, -, h⟩ := bind_eq_ok h
        obtain ⟨t, s₃, -, h⟩ := bind_eq_ok h
        split at h
        · cases h
        · exact (hmore h).elim
    · rw [beq_false_of_ne hcomma, if_neg Bool.false_ne_true, bind_of_ok (isAt_run _ s)] at h
      by_cases hnewline : s.cursor.current.token = .newline
      · rw [beq_iff_eq.2 hnewline, if_pos rfl,
          bind_of_ok (rfl : peekFollowing s = .ok s.cursor.following s)] at h
        split at h
        · cases h
          exact ⟨rfl, .inr ⟨hnewline, rfl⟩⟩
        · split at h
          · cases h
          · split at h
            · cases h
            · rw [discard_bind] at h
              obtain ⟨_, s₁, -, h⟩ := bind_eq_ok h
              exact (hmore h).elim
      · rw [beq_false_of_ne hnewline] at h
        cases h
        exact ⟨rfl, .inl rfl⟩

theorem eat_newline_run (s : ParserState) :
    ∃ found, eat .newline s = .ok found { s with cursor := s.cursor.pastBreak } := by
  unfold Cursor.pastBreak
  by_cases h : s.cursor.current.token = .newline
  · rw [if_pos h]
    exact ⟨true, eat_of_eq h⟩
  · rw [if_neg h]
    exact ⟨false, eat_of_ne h⟩

/-- A list of one item, without a comma behind it, is that item between line breaks. -/
theorem list_eq_one {p : Parser Node} {r : Nat} {n : Node} {s s' : ParserState}
    (h : list r p s = .ok ⟨[n], false⟩ s') (hend : s'.cursor.current.token ≠ .newline) :
    ∃ s₁, p { s with cursor := s.cursor.pastBreak } = .ok n s₁ ∧
      s₁.cursor.pastBreak = s'.cursor := by
  unfold list listWith at h
  obtain ⟨found, hbreak⟩ := eat_newline_run s
  rw [discard_bind, bind_of_ok hbreak] at h
  obtain ⟨t, s₁, ht, h⟩ := bind_eq_ok h
  cases ht
  split at h
  · cases h
  · obtain ⟨first, s₁, hfirst, h⟩ := bind_eq_ok h
    obtain ⟨rfl, rfl | ⟨hnewline, rfl⟩⟩ := listFrom_eq_one h
    · exact ⟨s', hfirst, if_neg hend⟩
    · exact ⟨s₁, hfirst, if_pos hnewline⟩

/-- A single expression in parentheses, without a comma behind it, keeps its own place. -/
theorem begins_paren : YieldsFrom c (paren g) fun n => Begins g.expression c n.position := by
  rintro s n s' rfl hrun
  rw [paren_eq] at hrun
  obtain ⟨⟨l, position⟩, s₁, hparens, hrun⟩ := bind_eq_ok hrun
  obtain rfl : l.grouped position = n := by
    cases hrun
    rfl
  unfold parenthesized at hparens
  by_cases hopens : s.cursor.current.token = .punctuator .leftParen
  · rw [bind_of_ok (expect_of_eq hopens)] at hparens
    obtain ⟨l', s₂, hlist, hparens⟩ := bind_eq_ok hparens
    rw [discard_bind] at hparens
    obtain ⟨q, s₃, hclose, hparens⟩ := bind_eq_ok hparens
    cases hparens
    have hcloses : s₂.cursor.current.token = .punctuator .rightParen := by
      by_contra hne
      rw [expect_of_ne hne] at hclose
      cases hclose
    match l with
    | ⟨[item], false⟩ =>
      obtain ⟨s₄, hitem, hbreak⟩ := list_eq_one hlist (by simp [hcloses])
      exact .group hopens rfl hitem (by rw [hbreak, hcloses])
    | ⟨[], _⟩ => exact .token
    | ⟨[_], true⟩ => exact .token
    | ⟨_ :: _ :: _, _⟩ => exact .token
  · rw [bind_of_error (expect_of_ne hopens)] at hparens
    cases hparens

theorem begins_atom (hg : g.remembers = false) :
    YieldsFrom c (atom g) fun n => Begins g.expression c n.position := by
  refine YieldsFrom.peek_bind ?_
  split
  · exact .of_at fun s n s' hs hrun => .of_eq (position_brace s n s' hs hrun)
  · exact .of_at fun s n s' hs hrun => .of_eq (position_bracket hg s n s' hs hrun)
  · exact begins_paren
  · cases hatom : atomOf? c.current.token with
    | none => exact .of_yields (yields_failExpecting _)
    | some kind => exact .of_yields (.skip fun _ => .pure .token)

theorem begins_primary (hg : g.remembers = false) :
    YieldsFrom c (primary g) fun n => Begins g.expression c n.position := by
  refine (begins_atom hg).bind fun base hbase => .skip fun ts => ?_
  match ts with
  | [] => exact .pure hbase
  | t :: ts => exact .pure hbase

theorem begins_unary (hg : g.remembers = false) :
    YieldsFrom c (unary g) fun n => Begins g.expression c n.position := by
  refine YieldsFrom.peek_bind ?_
  cases unaryOperator? c.current.token with
  | none => exact begins_primary hg
  | some operator => exact .of_yields (.skip fun _ => .skip fun operand => .pure .token)

theorem position_groupRun (position : Position) (operator : BinaryOperator) (run : List Node)
    (rest : List (BinaryOperator × Node)) :
    (OperatorLevel.groupRun position operator run rest).position = position := by
  induction rest generalizing operator run with
  | nil => rfl
  | cons x rest ih =>
    obtain ⟨next, operand⟩ := x
    unfold OperatorLevel.groupRun
    split
    · exact ih _ _
    · exact ih _ _

theorem position_group (level : OperatorLevel) (first : Node)
    (rest : List (BinaryOperator × Node)) : (level.group first rest).position = first.position := by
  unfold OperatorLevel.group
  cases rest with
  | nil => cases level.associativity <;> rfl
  | cons x rest =>
    cases level.associativity with
    | left => exact position_groupRun _ _ _ _
    | right => rfl

/-- A chain of operators begins where its first operand does. -/
theorem position_cascade {operand : Parser Node} {Q : Position → Prop} {r : Nat}
    (hoperand : YieldsFrom c operand fun n => Q n.position) (levels : List OperatorLevel) :
    YieldsFrom c (cascade r operand levels) fun n => Q n.position := by
  induction levels with
  | nil => exact hoperand
  | cons level levels ih =>
    refine ih.bind fun first hfirst => .skip fun rest => .pure ?_
    rwa [position_group]

theorem begins_plainExpression (hg : g.remembers = false) :
    YieldsFrom c (plainExpression g c.current) fun n => Begins g.expression c n.position := by
  have hdeclaration : YieldsFrom c (declaration g) fun n => Begins g.expression c n.position :=
    .of_at fun s n s' hs hrun => .of_eq (position_declaration s n s' hs hrun)
  unfold plainExpression
  split
  · exact hdeclaration
  · exact hdeclaration
  · refine .of_yields (.skip fun head => ?_)
    exact (position_assignmentValue head _).weaken fun _ => .of_eq
  · exact position_cascade (begins_unary hg) _

/-- **An expression begins at its first token, or where the one in its first group does.** -/
theorem begins_expressionWith (hg : g.remembers = false) :
    YieldsFrom c (expressionWith g) fun n => Begins g.expression c n.position := by
  refine YieldsFrom.peek_bind ?_
  split
  · next form hform =>
    unfold formAt? at hform
    split at hform
    · exact .of_at fun s n s' hs hrun => .of_eq (position_form hform s n s' hs hrun)
    · cases hform
  · refine YieldsFrom.attemptIf_bind (fun head => ?_) ?_
    · exact (position_lambdaBody head _).weaken fun _ => .of_eq
    · refine YieldsFrom.attemptIf_bind (fun head => ?_) (begins_plainExpression hg)
      exact (position_assignmentValue head _).weaken fun _ => .of_eq

/-! ### Expressions -/

variable {ts : List PlacedToken} {s s' : ParserState} {n : Node}

/-- The parser is at a group: behind a parenthesis it reads the expression, and behind that a
parenthesis closes. Line breaks may stand around the expression. -/
structure ParserState.AtGroup (s : ParserState) (n : Node) : Prop where
  opens : s.cursor.current.token = .punctuator .leftParen
  closes : ∃ s', Parser.expression { s with cursor := s.cursor.advance.pastBreak } = .ok n s' ∧
    s'.cursor.pastBreak.current.token = .punctuator .rightParen

theorem ok_of_ending_eq {r r' : EStateM.Result ParseError ParserState Node}
    (h : ending r = ending r') (hr : r = .ok n s) : ∃ s', r' = .ok n s' ∧ s'.cursor = s.cursor := by
  subst hr
  cases r' with
  | error e s' => cases h
  | ok n' s' =>
    obtain ⟨hn, hcursor⟩ := Prod.mk.inj h
    cases hn
    exact ⟨s', rfl, hcursor.symm⟩

namespace ParserState.Among

theorem cursor_ended (hs : s.Among ts) : s.cursor.Ended := by
  unfold Cursor.Ended
  rw [hs.rest]
  exact hasEnd_drop hs.index_lt

/-- Behind a parenthesis and a line break the parser is among the tokens still, with fewer of them
ahead. -/
theorem advance_pastBreak (hs : s.Among ts) (ht : s.cursor.current.token ≠ .endOfInput) :
    ParserState.Among ts { s with cursor := s.cursor.advance.pastBreak } ∧
      s.cursor.advance.pastBreak.rest.length < s.cursor.rest.length := by
  have hlength := hs.on.advance_length ht
  unfold Cursor.pastBreak
  split
  · have hle := hs.on.advance.advance_length_le
    exact ⟨hs.on.advance.advance.among hs.faithful, by omega⟩
  · exact ⟨hs.on.advance.among hs.faithful, by omega⟩

/-- **An expression begins at the token of the cursor, or at a group.** If it begins at a group, it
has the place of the expression in the group, whatever follows the group. -/
theorem position_expression (hs : s.Among ts) (h : Parser.expression s = .ok n s') :
    n.position = s.cursor.current.position ∨ ∃ m, s.AtGroup m ∧ n.position = m.position := by
  obtain ⟨depth, hdepth⟩ : ∃ depth, s.cursor.rest.length = depth + 1 :=
    ⟨s.cursor.rest.length - 1, by have := hs.on.length_pos; omega⟩
  have hending := hs.ending_expression (.none false) hdepth.le
  obtain ⟨s₁, hrun, -⟩ := ok_of_ending_eq hending.symm h
  have hbegins : Begins (phrases depth).expression s.cursor n.position :=
    begins_expressionWith (phrases_remembers depth) s n s₁ rfl hrun
  generalize n.position = q at hbegins
  cases hbegins with
  | token => exact .inl rfl
  | @group r r' m opens start inside closes =>
    obtain ⟨hamong, hlt⟩ := hs.advance_pastBreak (by rw [opens]; simp)
    -- what is remembered when the group is read makes no difference
    have hended : r.cursor.Ended := start ▸ hamong.cursor_ended
    have hcursor : ParserState.cursor { s with cursor := s.cursor.advance.pastBreak } = r.cursor :=
      start.symm
    obtain ⟨s₂, hinside, hcursor₂⟩ :=
      ((steadyAlone_phrases depth _ _).expression []).outcome_eq hended inside hcursor
    have hending := hamong.ending_expression (.none false) (Nat.le_of_lt_succ (hdepth ▸ hlt))
    obtain ⟨s₃, hexpression, hcursor₃⟩ := ok_of_ending_eq hending hinside
    exact .inr ⟨m, ⟨opens, s₃, hexpression, by rw [hcursor₃, hcursor₂, closes]⟩, rfl⟩

/-- The attribute of the group `(a)` has the place of `a`. -/
theorem position_expression_attribute :
    ∃ s s' : ParserState, Parser.expression s =
        .ok ⟨.primary ⟨.identifier "a", ⟨1, 2, 1⟩⟩ [.attribute "b"], ⟨1, 2, 1⟩⟩ s' ∧
      s.cursor.current.position = ⟨1, 1, 0⟩ ∧ ∃ m, s.AtGroup m ∧ m.position = ⟨1, 2, 1⟩ := by
  obtain ⟨s', hrun⟩ : ∃ s', Parser.expression (.ofTokens [⟨.punctuator .leftParen, ⟨1, 1, 0⟩⟩,
      ⟨.identifier "a", ⟨1, 2, 1⟩⟩, ⟨.punctuator .rightParen, ⟨1, 3, 2⟩⟩,
      ⟨.punctuator .dot, ⟨1, 4, 3⟩⟩, ⟨.identifier "b", ⟨1, 5, 4⟩⟩, ⟨.endOfInput, ⟨1, 6, 5⟩⟩]) =
      .ok ⟨.primary ⟨.identifier "a", ⟨1, 2, 1⟩⟩ [.attribute "b"], ⟨1, 2, 1⟩⟩ s' := ⟨_, rfl⟩
  refine ⟨_, s', hrun, rfl, ?_⟩
  rcases (ofTokens _).position_expression hrun with htoken | ⟨m, hgroup, hposition⟩
  · cases htoken
  · exact ⟨m, hgroup, hposition.symm⟩

/-- A group at the beginning of an expression moves the place of the expression, although more than
the group is read: `(a) + b` has the place of `a`. -/
theorem not_position_eq :
    ¬ ∀ (text : String) (ts : List PlacedToken) (s s' : ParserState) (n : Node),
      tokenize text = .ok ts → s.Among ts → Parser.expression s = .ok n s' →
        n.position = s.cursor.current.position ∨ ∃ l us r,
          s.cursor.rest = (l :: us) ++ r :: s'.cursor.rest ∧ l.token = .punctuator .leftParen ∧
            r.token = .punctuator .rightParen ∧ Balanced (us.map (·.token)) := by
  intro h
  have htokens : tokenize "(a) + b" = .ok [⟨.punctuator .leftParen, ⟨1, 1, 0⟩⟩,
      ⟨.identifier "a", ⟨1, 2, 1⟩⟩, ⟨.punctuator .rightParen, ⟨1, 3, 2⟩⟩,
      ⟨.punctuator .plus, ⟨1, 5, 4⟩⟩, ⟨.identifier "b", ⟨1, 7, 6⟩⟩, ⟨.endOfInput, ⟨1, 8, 7⟩⟩] :=
    eq_ok_of_toOption (by decide +kernel)
  rcases h _ _ _ _ _ htokens (ofTokens _) rfl with hposition | ⟨l, us, r, hrest, -, hclose, -⟩
  · cases hposition
  · -- the last token that is read is `b`
    have hsplit : [⟨.punctuator .leftParen, ⟨1, 1, 0⟩⟩, ⟨.identifier "a", ⟨1, 2, 1⟩⟩,
        ⟨.punctuator .rightParen, ⟨1, 3, 2⟩⟩, ⟨.punctuator .plus, ⟨1, 5, 4⟩⟩] ++
        [⟨.identifier "b", ⟨1, 7, 6⟩⟩, ⟨.endOfInput, ⟨1, 8, 7⟩⟩] =
        (l :: us) ++ [r, ⟨.endOfInput, ⟨1, 8, 7⟩⟩] := hrest
    obtain ⟨-, hlast⟩ := List.append_inj' hsplit rfl
    obtain ⟨rfl, -⟩ := List.cons.inj hlast
    cases hclose

end ParserState.Among

end DrakeSyntax
