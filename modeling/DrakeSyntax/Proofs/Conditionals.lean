import DrakeSyntax.Proofs.Separators.Commas

/-!
# Conditionals without braces

Several `if` in a row may be followed by fewer `else`, and nothing but their order says which of them
go together. Reading what is behind a `then` takes the `else` branches that belong to it first, so the
branches go to the conditionals from the innermost one on (`Conditionals.node`); what is left over
belongs to none and is rejected (`parseTokens_conditionals`). A line break in front of a `then` or an
`else` makes no difference.

* `reads_group`: an expression in parentheses, in front of what an operand does not go on with.
* `reads_elseBranch`: a conditional takes one branch, the next one.
* `reads_condition`, `reads_conditionals`: one conditional, and several of them by induction.
-/

namespace DrakeSyntax

open DrakeSyntax.Parser

/-! ### Expressions in parentheses -/

/-- An item in parentheses. -/
structure Group where
  left : Position
  item : Item
  right : Position

namespace Group

def tokens (e : Group) : List PlacedToken :=
  ⟨.punctuator .leftParen, e.left⟩ :: (e.item.tokens ++ [⟨.punctuator .rightParen, e.right⟩])

def node (e : Group) : Node := e.item.node

theorem length_tokens (e : Group) : e.tokens.length = e.item.tokens.length + 2 := by
  simp [tokens]

end Group

/-- No operand in front of the tokens goes on with them. -/
structure BehindOperand (w : List PlacedToken) : Prop where
  exists_cons : ∃ u us, w = u :: us ∧ u.token.EndsOperation ∧ u.token.opensTrailer = false
  ended : ∃ e ∈ w, e.token = .endOfInput

variable {α β : Type} {depth : Nat} {u : PlacedToken} {w us : List PlacedToken} {k : Keyword}
variable {p : Position}

/-- **A group is read as the expression in it.** -/
theorem reads_group {e : Group} (halone : e.item.Alone) (hw : BehindOperand w)
    (hdepth : e.tokens.length ≤ depth) :
    ReadsOn (phrases depth).expression (e.tokens ++ w) e.node w := by
  rw [e.length_tokens] at hdepth
  obtain ⟨depth, rfl⟩ : ∃ d, depth = d + 1 := ⟨depth - 1, by omega⟩
  obtain ⟨u, us, rfl, hoperation, htrailer⟩ := hw.exists_cons
  -- the item as a list of one
  let l : Listing := ⟨none, e.item, [], none⟩
  have hitems : ∀ item ∈ l.items, item.Alone := List.forall_mem_singleton.2 halone
  have htokens : l.tokens = e.item.tokens := List.append_nil _
  have huniform : l.Uniform := .inl (List.forall_mem_nil _)
  have hlength : l.tokens.length < depth := by
    rw [htokens]
    omega
  obtain ⟨hreads, hrounds⟩ := readBy_of_alone hitems hlength
  have hparen : Decides l.Uniform (paren (phrases depth)) (⟨.punctuator .leftParen, e.left⟩ ::
      (l.tokens ++ ⟨.punctuator .rightParen, e.right⟩ :: u :: us)) e.node (u :: us) :=
    decides_paren hw.ended hreads hrounds rfl rfl
  have hatom : ReadsOn (atom (phrases depth)) (⟨.punctuator .leftParen, e.left⟩ ::
      (l.tokens ++ ⟨.punctuator .rightParen, e.right⟩ :: u :: us)) e.node (u :: us) :=
    RunsOn.peek_bind (hparen.weaken (fun _ _ h => h.2) fun _ h => h.1 huniform)
  rw [Group.tokens, List.cons_append, List.append_assoc, ← htokens]
  refine RunsOn.operand_expressionWith rfl
    (headless_parens hitems rfl hoperation.head hw.ended depth) ?_ (RunsOn.atom_unary rfl ?_ hatom)
  · exact fun _ _ h => ⟨u, us, h.2, hoperation⟩
  · exact fun _ _ h => ⟨u, us, h.2, htrailer⟩

/-! ### The keywords -/

namespace RunsOn

variable {f : Bool → Parser β} {g : α → β} {q : Parser α} {t : PlacedToken}
variable {P : α → List PlacedToken → Prop} {Q : β → List PlacedToken → Prop} {E : ParseError → Prop}

theorem map (h : RunsOn q us P E) (hQ : ∀ a vs, P a vs → Q (g a) vs) :
    RunsOn (g <$> q) us Q E := by
  rw [← bind_pure_comp]
  exact h.bind fun a vs ha => .pure (hQ a vs ha)

/-- The keyword is found, also behind a line break. -/
theorem skipNewlineBefore_bind (lineBreak : Option Position)
    (h : RunsOn (f true) (⟨.keyword k, p⟩ :: us) Q E) :
    RunsOn (skipNewlineBefore k >>= f) (newlineTokens lineBreak ++ ⟨.keyword k, p⟩ :: us) Q E := by
  have hfound : RunsOn (isAt (.keyword k) >>= f) (⟨.keyword k, p⟩ :: us) Q E :=
    isAt_bind_eq rfl h
  intro s hs
  simp only [Bind.bind, EStateM.bind, skipNewlineBefore_run]
  cases lineBreak with
  | none =>
    have hcurrent : s.cursor.current = ⟨.keyword k, p⟩ := current_of_rest hs
    rw [if_neg (by simp [hcurrent])]
    exact hfound s hs
  | some q =>
    have hcurrent : s.cursor.current = ⟨.newline, q⟩ := current_of_rest hs
    have hrest : s.cursor.rest = ⟨.newline, q⟩ :: ⟨.keyword k, p⟩ :: us := hs
    rw [if_pos ⟨by rw [hcurrent], by rw [Cursor.following, hrest]⟩]
    exact hfound _ (rest_advance hrest Token.noConfusion)

/-- Another token than the keyword or a line break is left alone. -/
theorem skipNewlineBefore_bind_ne (hk : t.token ≠ .keyword k) (hnewline : t.token ≠ .newline)
    (h : RunsOn (f false) (t :: us) Q E) : RunsOn (skipNewlineBefore k >>= f) (t :: us) Q E := by
  have hfound : RunsOn (isAt (.keyword k) >>= f) (t :: us) Q E := isAt_bind_ne hk h
  intro s hs
  simp only [Bind.bind, EStateM.bind, skipNewlineBefore_run]
  rw [if_neg (by simp [current_of_rest hs, hnewline])]
  exact hfound s hs

end RunsOn

/-- No operand goes on with `then` or `else`, nor with a line break in front of it. -/
theorem behindOperand_keyword (hk : k = .then_ ∨ k = .else_) (lineBreak : Option Position)
    (hend : ∃ e ∈ us, e.token = .endOfInput) :
    BehindOperand (newlineTokens lineBreak ++ ⟨.keyword k, p⟩ :: us) where
  exists_cons := by
    cases lineBreak with
    | none => rcases hk with rfl | rfl <;> exact ⟨_, _, rfl, ⟨rfl, fun _ => rfl⟩, rfl⟩
    | some q => exact ⟨_, _, rfl, ⟨rfl, fun _ => rfl⟩, rfl⟩
  ended := exists_endOfInput_append _ (exists_endOfInput_cons _ hend)

/-! ### Conditionals -/

/-- An `if` with its condition and a `then`. -/
structure Condition where
  position : Position
  group : Group
  lineBreak : Option Position
  thenPosition : Position

/-- An `else` with what is behind it. -/
structure Alternative where
  lineBreak : Option Position
  position : Position
  group : Group

/-- Conditions, each of them behind the `then` of the one before, what is behind the last `then`, and
the branches for when a condition does not hold. -/
structure Conditionals where
  conditions : List Condition
  consequence : Group
  alternatives : List Alternative

def Condition.tokens (c : Condition) : List PlacedToken :=
  ⟨.keyword .if_, c.position⟩ ::
    (c.group.tokens ++ (newlineTokens c.lineBreak ++ [⟨.keyword .then_, c.thenPosition⟩]))

def Alternative.tokens (a : Alternative) : List PlacedToken :=
  newlineTokens a.lineBreak ++ ⟨.keyword .else_, a.position⟩ :: a.group.tokens

namespace Conditionals

def tokens (n : Conditionals) : List PlacedToken :=
  n.conditions.flatMap Condition.tokens ++
    (n.consequence.tokens ++ n.alternatives.flatMap Alternative.tokens)

def items (n : Conditionals) : List Item :=
  n.conditions.map (·.group.item) ++ n.consequence.item :: n.alternatives.map (·.group.item)

/-- What the conditions are read as. With `i` conditions behind it, a condition has the branch with
`i` branches in front of it, if there is one. -/
def nodeOf (consequence : Group) (alternatives : List Alternative) : List Condition → Node
  | [] => consequence.node
  | c :: cs => ⟨.conditional c.group.node (nodeOf consequence alternatives cs)
      (alternatives[cs.length]?.map (·.group.node)), c.position⟩

def node (n : Conditionals) : Node := nodeOf n.consequence n.alternatives n.conditions

end Conditionals

variable {a : Alternative} {as : List Alternative} {c : Condition} {cs : List Condition} {e : Group}
variable {eof : Position}

theorem length_group_le (h : a ∈ as) :
    a.group.tokens.length ≤ (as.flatMap Alternative.tokens).length := by
  have hsublist : List.Sublist a.tokens (as.flatMap Alternative.tokens) := by
    rw [List.flatMap_def]
    exact List.sublist_flatten_of_mem (List.mem_map_of_mem h)
  refine Nat.le_trans ?_ hsublist.length_le
  rw [Alternative.tokens, List.length_append, List.length_cons]
  omega

/-- No operand goes on with the branches that are left. -/
theorem behindOperand_alternatives (as : List Alternative) (eof : Position) :
    BehindOperand (as.flatMap Alternative.tokens ++ [⟨.endOfInput, eof⟩]) := by
  have hend : ∃ e ∈ [(⟨.endOfInput, eof⟩ : PlacedToken)], e.token = .endOfInput :=
    ⟨_, List.mem_singleton_self _, rfl⟩
  cases as with
  | nil => exact ⟨⟨_, _, rfl, Token.endsOperation_endOfInput, rfl⟩, hend⟩
  | cons a as =>
    rw [List.flatMap_cons, Alternative.tokens, List.append_assoc, List.append_assoc]
    exact behindOperand_keyword (.inr rfl) _
      (exists_endOfInput_append _ (exists_endOfInput_append _ hend))

/-- **A conditional takes the next branch, if one is left.** -/
theorem reads_elseBranch (eof : Position) (halone : ∀ a ∈ as, a.group.item.Alone)
    (hdepth : ∀ a ∈ as, a.group.tokens.length ≤ depth) :
    ReadsOn (elseBranch (phrases depth)) (as.flatMap Alternative.tokens ++ [⟨.endOfInput, eof⟩])
      (as.head?.map (·.group.node))
      (as.tail.flatMap Alternative.tokens ++ [⟨.endOfInput, eof⟩]) := by
  cases as with
  | nil =>
    exact RunsOn.skipNewlineBefore_bind_ne Token.noConfusion Token.noConfusion
      (RunsOn.ite_false (RunsOn.pure ⟨rfl, rfl⟩))
  | cons a as =>
    obtain ⟨ha, -⟩ := List.forall_mem_cons.1 halone
    obtain ⟨hlength, -⟩ := List.forall_mem_cons.1 hdepth
    rw [List.flatMap_cons, Alternative.tokens, List.append_assoc, List.append_assoc]
    refine RunsOn.skipNewlineBefore_bind _ (RunsOn.ite_true (RunsOn.discard_bind ?_))
    refine RunsOn.advance_bind Token.noConfusion ?_
    refine RunsOn.map (reads_group ha (behindOperand_alternatives as eof) hlength) ?_
    rintro _ _ ⟨rfl, rfl⟩
    exact ⟨rfl, rfl⟩

/-- One conditional: what is behind its `then` is read first, and then a branch is taken from what that
leaves. -/
theorem reads_condition {n : Node} {branch : Option Node} {vs ws : List PlacedToken}
    (hc : c.group.item.Alone) (hdepth : c.group.tokens.length ≤ depth)
    (hend : ∃ e ∈ us, e.token = .endOfInput) (hthen : ReadsOn (phrases depth).expression us n vs)
    (hbranch : ReadsOn (elseBranch (phrases depth)) vs branch ws) :
    ReadsOn (phrases (depth + 1)).expression (c.tokens ++ us)
      ⟨.conditional c.group.node n branch, c.position⟩ ws := by
  rw [Condition.tokens, List.cons_append, List.append_assoc, List.append_assoc,
    List.singleton_append]
  refine RunsOn.peek_bind (RunsOn.expect_bind rfl Token.noConfusion ?_)
  refine (reads_group hc (behindOperand_keyword (.inl rfl) _ hend) hdepth).bind ?_
  refine RunsOn.discard_bind (RunsOn.skipNewlineBefore_bind _ (RunsOn.discard_bind ?_))
  refine RunsOn.expect_bind rfl Token.noConfusion (hthen.bind ?_)
  exact hbranch.bind (RunsOn.pure ⟨rfl, rfl⟩)

/-- **The branches go to the conditions from the last one on.** Behind `i` conditions the first `i`
branches are taken. -/
theorem reads_conditionals (hconditions : ∀ c ∈ cs, c.group.item.Alone) (he : e.item.Alone)
    (halternatives : ∀ a ∈ as, a.group.item.Alone)
    (hdepth : (Conditionals.tokens ⟨cs, e, as⟩).length ≤ depth) :
    ReadsOn (phrases depth).expression
      (Conditionals.tokens ⟨cs, e, as⟩ ++ [⟨.endOfInput, eof⟩]) (Conditionals.nodeOf e as cs)
      ((as.drop cs.length).flatMap Alternative.tokens ++ [⟨.endOfInput, eof⟩]) := by
  induction cs generalizing depth with
  | nil =>
    simp only [Conditionals.tokens, List.flatMap_nil, List.nil_append, List.length_append,
      List.append_assoc] at hdepth ⊢
    exact reads_group he (behindOperand_alternatives as eof) (by omega)
  | cons c cs ih =>
    obtain ⟨hc, hcs⟩ := List.forall_mem_cons.1 hconditions
    have htokens : Conditionals.tokens ⟨c :: cs, e, as⟩ =
        c.tokens ++ Conditionals.tokens ⟨cs, e, as⟩ := by
      simp only [Conditionals.tokens, List.flatMap_cons, List.append_assoc]
    rw [htokens, List.length_append, Condition.tokens, List.length_cons, List.length_append]
      at hdepth
    obtain ⟨depth, rfl⟩ : ∃ d, depth = d + 1 := ⟨depth - 1, by omega⟩
    -- what is behind the `then` leaves the first branch that none of its conditions takes
    have hbranches : ∀ a ∈ as.drop cs.length, a.group.tokens.length ≤ depth := fun a ha => by
      have hlength := length_group_le (List.mem_of_mem_drop ha)
      simp only [Conditionals.tokens, List.length_append] at hdepth
      omega
    have hbranch := reads_elseBranch eof
      (fun a ha => halternatives a (List.mem_of_mem_drop ha)) hbranches
    rw [List.head?_drop, List.tail_drop] at hbranch
    rw [htokens, List.append_assoc]
    exact reads_condition hc (by omega)
      (exists_endOfInput_append _ ⟨_, List.mem_singleton_self _, rfl⟩) (ih hcs (by omega)) hbranch

/-! ### Programs -/

/-- What fails with the tokens at any positions fails with them. -/
theorem RunsOn.of_fails {q : Parser α} {P : α → List PlacedToken → Prop}
    (h : Fails q (us.map (·.token))) : RunsOn q us P fun _ => True := by
  intro s hs
  have hrun := h s (by rw [ParserState.tokens, hs])
  generalize q s = result at hrun ⊢
  cases result with
  | ok a s' => exact hrun.2.elim
  | error e s' => trivial

/-- A list does not go on with an `else`: it ends in front of it, or it fails behind a line break. -/
theorem stops_listFrom_alternative {g : Inner} {last : Node} (a : Alternative)
    (ws : List PlacedToken) :
    RunsOn (listFrom (fun _ => expressionWith g) (depth + 1) none last) (a.tokens ++ ws)
      (fun _ vs => ∃ u us, vs = u :: us ∧ u.token = .keyword .else_) fun _ => True := by
  obtain ⟨lineBreak, position, group⟩ := a
  cases lineBreak with
  | none =>
    refine (reads_listFrom_end Token.noConfusion Token.noConfusion).weaken ?_ fun _ => False.elim
    rintro _ _ ⟨-, rfl⟩
    exact ⟨_, _, rfl, rfl⟩
  | some p =>
    have hfails : Fails (expressionWith g) (.keyword .else_ :: (group.tokens ++ ws).map (·.token)) :=
      fails_expressionWith_of_continues rfl
    change RunsOn _ ((Joint.newline p).tokens ++
      ⟨.keyword .else_, position⟩ :: (group.tokens ++ ws)) _ _
    refine runsOn_listFrom_newline Token.noConfusion (fun h => nomatch h) (fun _ h => nomatch h)
      fun _ _ => ?_
    exact (RunsOn.of_fails hfails).bind fun _ _ => False.elim

theorem Conditionals.exists_tokens (n : Conditionals) :
    ∃ t us, n.tokens = t :: us ∧ t.token.separates = false := by
  obtain ⟨conditions, e, as⟩ := n
  cases conditions with
  | nil => exact ⟨_, _, rfl, rfl⟩
  | cons c cs => exact ⟨_, _, rfl, rfl⟩

/-- As a list, conditionals are its only item. The list ends behind them if no branch is left. -/
theorem runsOn_list_conditionals {n : Conditionals} (halone : ∀ item ∈ n.items, item.Alone)
    (hdepth : n.tokens.length ≤ depth) :
    RunsOn (list (phrases (depth + 1)).rounds (phrases (depth + 1)).expression)
      (n.tokens ++ [⟨.endOfInput, eof⟩])
      (fun l vs => n.alternatives.length ≤ n.conditions.length ∧ l = ⟨[n.node], false⟩ ∧
          vs = [⟨.endOfInput, eof⟩] ∨
        n.conditions.length < n.alternatives.length ∧ ∃ u us, vs = u :: us ∧ u.token = .keyword .else_)
      fun _ => n.conditions.length < n.alternatives.length := by
  obtain ⟨hconditions, hitems⟩ := List.forall_mem_append.1 halone
  obtain ⟨he, halternatives⟩ := List.forall_mem_cons.1 hitems
  have hexpression : ReadsOn (phrases (depth + 1)).expression (n.tokens ++ [⟨.endOfInput, eof⟩])
      n.node ((n.alternatives.drop n.conditions.length).flatMap Alternative.tokens ++
        [⟨.endOfInput, eof⟩]) :=
    reads_conditionals (List.forall_mem_map.1 hconditions) he (List.forall_mem_map.1 halternatives)
      (Nat.le_succ_of_le hdepth)
  obtain ⟨t, us, htokens, hseparates⟩ := n.exists_tokens
  rw [htokens, List.cons_append] at hexpression ⊢
  refine RunsOn.discard_bind (RunsOn.eat_bind_ne (Token.ne_of_apply hseparates rfl) ?_)
  refine RunsOn.peek_bind ?_
  rw [if_neg (Token.closesList_of_separates hseparates)]
  refine hexpression.bind ?_
  rw [phrases_rounds]
  rcases Nat.lt_or_ge n.conditions.length n.alternatives.length with hlt | hge
  · rw [List.drop_eq_getElem_cons hlt, List.flatMap_cons, List.append_assoc]
    exact (stops_listFrom_alternative _ _).weaken (fun _ _ h => .inr ⟨hlt, h⟩) fun _ _ => hlt
  · rw [List.drop_eq_nil_of_le hge]
    exact (reads_listFrom_close rfl).weaken (fun _ _ h => .inl ⟨hge, h⟩) fun _ => False.elim

/-- As a program, conditionals are read if no branch is left, and otherwise they are rejected. -/
theorem runsOn_programWith_conditionals {n : Conditionals} (eof : Position)
    (halone : ∀ item ∈ n.items, item.Alone) (hdepth : n.tokens.length ≤ depth) :
    RunsOn (programWith (phrases (depth + 1))) (n.tokens ++ [⟨.endOfInput, eof⟩])
      (fun program _ => n.alternatives.length ≤ n.conditions.length ∧ program = ⟨[n.node]⟩)
      fun _ => n.conditions.length < n.alternatives.length := by
  refine (runsOn_list_conditionals halone hdepth).bind ?_
  rintro l vs (⟨hle, rfl, rfl⟩ | ⟨hlt, u, us, rfl, hu⟩)
  · exact RunsOn.isAt_bind_eq rfl (RunsOn.ite_true (RunsOn.pure ⟨hle, rfl⟩))
  · exact RunsOn.isAt_bind_ne (by simp [hu]) (RunsOn.ite_false fun _ _ => hlt)

/-- **An `else` belongs to the nearest open `if`.** Conditionals are accepted as a program if and only
if there are no more branches than conditions, and then the branches belong to the conditions from the
innermost one on. -/
theorem parseTokens_conditionals (n : Conditionals) (halone : ∀ item ∈ n.items, item.Alone)
    (eof : Position) :
    (n.alternatives.length ≤ n.conditions.length →
      parseTokens (n.tokens ++ [⟨.endOfInput, eof⟩]) = .ok ⟨[n.node]⟩) ∧
    (n.conditions.length < n.alternatives.length →
      ∃ error, parseTokens (n.tokens ++ [⟨.endOfInput, eof⟩]) = .error error) := by
  have hlength : (n.tokens ++ [(⟨.endOfInput, eof⟩ : PlacedToken)]).length = n.tokens.length + 1 := by
    simp
  have hrun := parseTokens_of_runsOn (by simp [EndsInput])
    (runsOn_programWith_conditionals eof halone (hlength ▸ Nat.le_succ _))
  generalize parseTokens (n.tokens ++ [(⟨.endOfInput, eof⟩ : PlacedToken)]) = result at hrun ⊢
  cases result with
  | ok program =>
    obtain ⟨-, hle, rfl⟩ := hrun
    exact ⟨fun _ => rfl, fun hlt => absurd hlt (Nat.not_lt.2 hle)⟩
  | error e => exact ⟨fun hle => absurd hrun (Nat.not_lt.2 hle), fun _ => ⟨e, rfl⟩⟩

/-- Of two conditionals the inner one takes the branch, also on a line of its own, and a conditional
does not take two branches. -/
theorem parseTokens_conditionals_inner :
    parseTokens [⟨.keyword .if_, ⟨1, 1, 0⟩⟩, ⟨.punctuator .leftParen, ⟨1, 4, 3⟩⟩,
        ⟨.identifier "c", ⟨1, 5, 4⟩⟩, ⟨.punctuator .rightParen, ⟨1, 6, 5⟩⟩,
        ⟨.keyword .then_, ⟨1, 8, 7⟩⟩, ⟨.keyword .if_, ⟨1, 13, 12⟩⟩,
        ⟨.punctuator .leftParen, ⟨1, 16, 15⟩⟩, ⟨.identifier "d", ⟨1, 17, 16⟩⟩,
        ⟨.punctuator .rightParen, ⟨1, 18, 17⟩⟩, ⟨.keyword .then_, ⟨1, 20, 19⟩⟩,
        ⟨.punctuator .leftParen, ⟨1, 25, 24⟩⟩, ⟨.identifier "a", ⟨1, 26, 25⟩⟩,
        ⟨.punctuator .rightParen, ⟨1, 27, 26⟩⟩, ⟨.newline, ⟨1, 28, 27⟩⟩,
        ⟨.keyword .else_, ⟨2, 1, 28⟩⟩, ⟨.punctuator .leftParen, ⟨2, 6, 33⟩⟩,
        ⟨.identifier "b", ⟨2, 7, 34⟩⟩, ⟨.punctuator .rightParen, ⟨2, 8, 35⟩⟩,
        ⟨.endOfInput, ⟨2, 9, 36⟩⟩] =
      .ok ⟨[⟨.conditional ⟨.identifier "c", ⟨1, 5, 4⟩⟩
        ⟨.conditional ⟨.identifier "d", ⟨1, 17, 16⟩⟩ ⟨.identifier "a", ⟨1, 26, 25⟩⟩
          (some ⟨.identifier "b", ⟨2, 7, 34⟩⟩), ⟨1, 13, 12⟩⟩ none, ⟨1, 1, 0⟩⟩]⟩ ∧
    ∃ e, parseTokens [⟨.keyword .if_, ⟨1, 1, 0⟩⟩, ⟨.punctuator .leftParen, ⟨1, 4, 3⟩⟩,
        ⟨.identifier "c", ⟨1, 5, 4⟩⟩, ⟨.punctuator .rightParen, ⟨1, 6, 5⟩⟩,
        ⟨.keyword .then_, ⟨1, 8, 7⟩⟩, ⟨.punctuator .leftParen, ⟨1, 13, 12⟩⟩,
        ⟨.identifier "a", ⟨1, 14, 13⟩⟩, ⟨.punctuator .rightParen, ⟨1, 15, 14⟩⟩,
        ⟨.keyword .else_, ⟨1, 17, 16⟩⟩, ⟨.punctuator .leftParen, ⟨1, 22, 21⟩⟩,
        ⟨.identifier "b", ⟨1, 23, 22⟩⟩, ⟨.punctuator .rightParen, ⟨1, 24, 23⟩⟩,
        ⟨.keyword .else_, ⟨1, 26, 25⟩⟩, ⟨.punctuator .leftParen, ⟨1, 31, 30⟩⟩,
        ⟨.identifier "d", ⟨1, 32, 31⟩⟩, ⟨.punctuator .rightParen, ⟨1, 33, 32⟩⟩,
        ⟨.endOfInput, ⟨1, 34, 33⟩⟩] = .error e := by
  let name (name : String) (p : Position) : Item :=
    ⟨[⟨.identifier name, p⟩], ⟨.identifier name, p⟩⟩
  have hname (text : String) (p : Position) : (name text p).Alone := ⟨.start, _, rfl, rfl⟩
  let outer : Condition :=
    ⟨⟨1, 1, 0⟩, ⟨⟨1, 4, 3⟩, name "c" ⟨1, 5, 4⟩, ⟨1, 6, 5⟩⟩, none, ⟨1, 8, 7⟩⟩
  let inner : Condition :=
    ⟨⟨1, 13, 12⟩, ⟨⟨1, 16, 15⟩, name "d" ⟨1, 17, 16⟩, ⟨1, 18, 17⟩⟩, none, ⟨1, 20, 19⟩⟩
  let nested : Conditionals := ⟨[outer, inner], ⟨⟨1, 25, 24⟩, name "a" ⟨1, 26, 25⟩, ⟨1, 27, 26⟩⟩,
    [⟨some ⟨1, 28, 27⟩, ⟨2, 1, 28⟩, ⟨⟨2, 6, 33⟩, name "b" ⟨2, 7, 34⟩, ⟨2, 8, 35⟩⟩⟩]⟩
  let crowded : Conditionals := ⟨[outer], ⟨⟨1, 13, 12⟩, name "a" ⟨1, 14, 13⟩, ⟨1, 15, 14⟩⟩,
    [⟨none, ⟨1, 17, 16⟩, ⟨⟨1, 22, 21⟩, name "b" ⟨1, 23, 22⟩, ⟨1, 24, 23⟩⟩⟩,
      ⟨none, ⟨1, 26, 25⟩, ⟨⟨1, 31, 30⟩, name "d" ⟨1, 32, 31⟩, ⟨1, 33, 32⟩⟩⟩]⟩
  have hnested : ∀ item ∈ nested.items, item.Alone := by
    simp [nested, Conditionals.items, outer, inner, hname]
  have hcrowded : ∀ item ∈ crowded.items, item.Alone := by
    simp [crowded, Conditionals.items, outer, hname]
  exact ⟨(parseTokens_conditionals nested hnested ⟨2, 9, 36⟩).1 (Nat.le_succ 1),
    (parseTokens_conditionals crowded hcrowded ⟨1, 34, 33⟩).2 (Nat.lt_succ_self 1)⟩

end DrakeSyntax
