import DrakeSyntax.Proofs.Separators.Item

/-!
# Lists in all surroundings

A list of items that are expressions by themselves is accepted as a program or in parentheses,
brackets or braces if and only if its separators are uniform, and otherwise it is rejected since it
mixes them (`parseTokens_around`). The surroundings only decide what the expressions become.

* `Surroundings`: what stands around a list, and what the list becomes there.
* `decides_paren`, `decides_bracket`, `decides_brace`: lists in brackets of each kind.
* `RunsOn.single`: what is in brackets is the only expression of a program.
-/

namespace DrakeSyntax

open DrakeSyntax.Parser

variable {g : Inner} {l : Listing} {c : Prop} {node : Node} {eof : Position}
variable {t u left close : PlacedToken} {us w : List PlacedToken}

/-! ### Operands and expressions -/

/-- Whether an item between brackets can end in front of the token. -/
def Token.endsBracketItem : Token → Bool
  | .punctuator .comma | .punctuator .rightBracket | .newline => true
  | _ => false

theorem Token.endsOperation_of_endsBracketItem {t : Token} (h : t.endsBracketItem) :
    t.EndsOperation := by
  unfold endsBracketItem at h
  split at h
  · exact ⟨rfl, fun _ => rfl⟩
  · exact ⟨rfl, fun _ => rfl⟩
  · exact ⟨rfl, fun _ => rfl⟩
  · cases h

theorem isAtItemEnd_eq (s : ParserState) :
    isAtItemEnd s = .ok s.cursor.current.token.endsBracketItem s := by
  unfold isAtItemEnd
  rw [bind_of_ok (rfl : peek s = .ok s.cursor.current s)]
  cases s.cursor.current.token with
  | punctuator p => cases p <;> rfl
  | _ => rfl

theorem EndsItem.exists_cons (hw : EndsItem w) : ∃ t us, w = t :: us ∧ t.token.separates := by
  obtain ⟨⟨-, e, he, -⟩, hseparates⟩ := hw
  cases w with
  | nil => cases he
  | cons t us => exact ⟨t, us, rfl, hseparates⟩

section Rules

variable {α β : Type} {p : Parser α} {P : α → List PlacedToken → Prop}
variable {Q : β → List PlacedToken → Prop} {E : ParseError → Prop}

namespace RunsOn

theorem mark_bind {f : Cursor → Parser β} (h : ∀ c : Cursor, c.rest = us → RunsOn (f c) us Q E) :
    RunsOn (mark >>= f) us Q E :=
  fun s hs => h s.cursor hs s hs

theorem reset_bind {f : Unit → Parser β} {c : Cursor} {vs : List PlacedToken} (hc : c.rest = us)
    (h : RunsOn (f ()) us Q E) : RunsOn (reset c >>= f) vs Q E :=
  fun s _ => h { s with cursor := c } hc

/-- An attempt leaves the tokens alone if it fails. -/
theorem attempt_bind {f : Except ParseError α → Parser β}
    (hok : ∀ s a s', s.cursor.rest = us → p s = .ok a s' →
      RunsOn (f (.ok a)) s'.cursor.rest Q E)
    (herror : ∀ e, RunsOn (f (.error e)) us Q E) : RunsOn (attempt p >>= f) us Q E := by
  intro s hs
  cases hp : p s with
  | ok a s' =>
    rw [bind_of_ok (attempt_of_ok hp)]
    exact hok s a s' hs hp s' rfl
  | error e s' =>
    rw [bind_of_ok (attempt_of_error hp)]
    exact herror e _ hs

/-- Operands without an operator behind them are chains. -/
theorem cascade {P : Node → List PlacedToken → Prop} {operand : Parser Node}
    (hp : RunsOn operand us P E)
    (hend : ∀ a vs, P a vs → ∃ t ws, vs = t :: ws ∧ t.token.EndsOperation) (r : Nat)
    (levels : List OperatorLevel) : RunsOn (cascade r operand levels) us P E := by
  intro s hs
  have hrun := hp s hs
  cases h : operand s with
  | ok a s' =>
    rw [h] at hrun
    obtain ⟨t, ws, hrest, ht⟩ := hend a _ hrun
    rw [cascade_of_ok h (by rwa [current_of_rest hrest])]
    exact hrun
  | error e s' =>
    rw [h] at hrun
    rw [cascade_of_error h]
    exact hrun

theorem expressionWith {P : Node → List PlacedToken → Prop} (ht : t.token.opensOperand)
    (hhead : Headless g (t.token :: us.map (·.token)))
    (h : RunsOn (Parser.cascade g.rounds (unary g) OperatorLevel.all) (t :: us) P E) :
    RunsOn (expressionWith g) (t :: us) P E := by
  intro s hs
  have htokens : s.tokens = t.token :: us.map (·.token) := by rw [ParserState.tokens, hs]; rfl
  obtain ⟨s', hcursor, hrun⟩ := expressionWith_run htokens ht hhead
  rw [hrun]
  exact h s' (by rw [hcursor, hs])

theorem isAtItemEnd_bind {f : Bool → Parser β}
    (h : RunsOn (f t.token.endsBracketItem) (t :: us) Q E) :
    RunsOn (isAtItemEnd >>= f) (t :: us) Q E := by
  intro s hs
  rw [bind_of_ok (isAtItemEnd_eq s), current_of_rest hs]
  exact h s hs

end RunsOn

end Rules

theorem Token.endsOperation_endOfInput : Token.endOfInput.EndsOperation := ⟨rfl, fun _ => rfl⟩

/-- What reads an operand and ends where no operation goes on reads an expression. -/
theorem RunsOn.operand_expressionWith {P : Node → List PlacedToken → Prop} {E : ParseError → Prop}
    (ht : t.token.opensOperand) (hhead : Headless g (t.token :: us.map (·.token)))
    (hend : ∀ a vs, P a vs → ∃ u ws, vs = u :: ws ∧ u.token.EndsOperation)
    (h : RunsOn (unary g) (t :: us) P E) : RunsOn (Parser.expressionWith g) (t :: us) P E :=
  RunsOn.expressionWith ht hhead (RunsOn.cascade h hend _ _)

/-- Where no trailer begins, there are none. -/
theorem reads_no_trailers (hu : u.token.opensTrailer = false) (r : Nat) :
    ReadsOn (trailers g r) (u :: us) [] (u :: us) := by
  intro s hs
  rw [trailers_of_current (by rwa [current_of_rest hs])]
  exact ⟨rfl, hs⟩

/-- An atom without trailers is an operand. -/
theorem RunsOn.atom_unary {P : Node → List PlacedToken → Prop} {E : ParseError → Prop}
    (hunary : unaryOperator? t.token = none)
    (hend : ∀ a vs, P a vs → ∃ u ws, vs = u :: ws ∧ u.token.opensTrailer = false)
    (h : RunsOn (atom g) (t :: us) P E) : RunsOn (unary g) (t :: us) P E := by
  refine RunsOn.peek_bind ?_
  simp only [hunary]
  refine RunsOn.bind h fun a vs ha => ?_
  obtain ⟨u, ws, rfl, hu⟩ := hend a vs ha
  exact (reads_no_trailers hu g.rounds).bind (RunsOn.pure ha)

/-- An atom in front of the end of the input is an expression. -/
theorem RunsOn.atom_expressionWith {P : Node → List PlacedToken → Prop} {E : ParseError → Prop}
    (hend : ∀ a vs, P a vs → vs = [⟨.endOfInput, eof⟩]) (ht : t.token.opensOperand)
    (hunary : unaryOperator? t.token = none) (hhead : Headless g (t.token :: us.map (·.token)))
    (h : RunsOn (atom g) (t :: us) P E) : RunsOn (Parser.expressionWith g) (t :: us) P E := by
  refine RunsOn.operand_expressionWith ht hhead (fun a vs ha => ?_)
    (RunsOn.atom_unary hunary (fun a vs ha => ?_) h)
  · exact ⟨_, [], hend a vs ha, Token.endsOperation_endOfInput⟩
  · exact ⟨_, [], hend a vs ha, rfl⟩

/-! ### Lists in brackets -/

theorem decides_bracketItems {items : Parser (ItemList Node)} {contents : ItemList Node}
    {position : Position} (h : Decides c items us contents (close :: w))
    (hclose : close.token = .punctuator .rightBracket) :
    Decides c (bracketItems position items) us ⟨.list (.items contents.items), position⟩ w :=
  h.bind fun _ => RunsOn.discard_bind (RunsOn.expect_bind hclose (by decide) (RunsOn.pure ⟨rfl, rfl⟩))

/-- Something is left behind an operand. -/
theorem exists_rest_of_unary (hg : g.SteadyAlone) {a : Node} {s s' : ParserState}
    (hended : s.cursor.Ended) (hunary : unary g s = .ok a s') : ∃ u us, s'.cursor.rest = u :: us := by
  have hpasses := (matches_unary (k := []) (hg _ _)).passes hended
  rw [hunary] at hpasses
  obtain ⟨e, he, -⟩ := hpasses.ended
  exact List.exists_cons_of_ne_nil (List.ne_nil_of_mem he)

/-- An operand that an item begins with has no two dots behind it. If what stands behind it can end
an item between brackets, the operand is the item. -/
theorem exists_behind_unary (hg : g.SteadyAlone) {item : Item} {a : Node} {s s' : ParserState}
    (hitem : item.ReadBy (expressionWith g)) (hw : EndsItem w)
    (hs : s.cursor.rest = item.tokens ++ w) (hunary : unary g s = .ok a s') :
    ∃ u us, s'.cursor.rest = u :: us ∧ u.token ≠ .punctuator .dotDot ∧
      (u.token.endsBracketItem → a = item.node ∧ u :: us = w) := by
  obtain ⟨t, ts, htokens, -, -⟩ := hitem.opens
  obtain ⟨e, he, hend⟩ := hw.ended
  have hended : s.cursor.Ended := ⟨e, hs ▸ List.mem_append_right _ he, hend⟩
  have hstate : s.tokens = t.token :: (ts ++ w).map (·.token) := by
    rw [ParserState.tokens, hs, htokens]
    rfl
  obtain ⟨u, us, hu⟩ := exists_rest_of_unary hg hended hunary
  have hwhole (hstop : u.token.EndsOperation) : a = item.node ∧ u :: us = w := by
    rw [← current_of_rest hu] at hstop
    obtain ⟨r, hrun, hcursor⟩ := expressionWith_of_unary hg hstate
      (List.mem_map.2 ⟨e, List.mem_append_right _ he, hend⟩) hunary hstop
    have hreads := hitem.reads w hw s hs
    rw [hrun] at hreads
    rw [← hu, ← hcursor]
    exact hreads
  refine ⟨u, us, hu, fun hdots => ?_, fun hstop => ?_⟩
  · -- the item would end in front of the dots
    obtain ⟨-, hrest⟩ := hwhole (hdots ▸ ⟨rfl, fun _ => rfl⟩)
    obtain ⟨v, vs, hv, hseparates⟩ := hw.exists_cons
    rw [hv] at hrest
    rw [← (List.cons.inj hrest).1, hdots] at hseparates
    cases hseparates
  · exact hwhole (Token.endsOperation_of_endsBracketItem hstop)

section Brackets

variable (hend : ∃ e ∈ w, e.token = .endOfInput)

include hend

/-- A list in parentheses. -/
theorem decides_paren (hitems : ∀ item ∈ l.items, item.ReadBy g.expression)
    (hrounds : l.more.length < g.rounds) (hleft : left.token = .punctuator .leftParen)
    (hclose : close.token = .punctuator .rightParen) :
    Decides l.Uniform (paren g) (left :: (l.tokens ++ close :: w))
      (l.contents.grouped left.position) w := by
  have hlist := l.decides_list hitems hrounds (by rw [hclose]; rfl) (exists_endOfInput_cons close hend)
  have hparens : Decides l.Uniform (parenthesized g) (left :: (l.tokens ++ close :: w))
      (l.contents, left.position) w := by
    refine RunsOn.expect_bind hleft (by decide) (hlist.bind fun _ => RunsOn.discard_bind ?_)
    exact RunsOn.expect_bind hclose (by decide) (RunsOn.pure ⟨rfl, rfl⟩)
  rw [paren_eq]
  exact hparens.bind fun _ => RunsOn.pure ⟨rfl, rfl⟩

/-- A list in braces. No colon stands behind its first item. -/
theorem decides_brace (hitems : ∀ item ∈ l.items, item.ReadBy g.expression)
    (hrounds : l.more.length < g.rounds) (hleft : left.token = .punctuator .leftBrace)
    (hclose : close.token = .punctuator .rightBrace) :
    Decides l.Uniform (brace g) (left :: (l.tokens ++ close :: w))
      ⟨.block l.nodes, left.position⟩ w := by
  have hcloses : close.token.closesList := by rw [hclose]; rfl
  have hbehind := l.endsItem_behind hitems hcloses (exists_endOfInput_cons close hend)
  have hfirst := hitems l.first (List.mem_cons_self ..)
  obtain ⟨t, ts, hbody, hseparates⟩ := Listing.exists_body hfirst (close :: w)
  obtain ⟨u, us, hu⟩ := hbehind.exists_cons
  have hlist := l.decides_listBehind hitems hrounds hcloses (exists_endOfInput_cons close hend)
  rw [Listing.tokens, List.append_assoc, hbody]
  refine RunsOn.expect_bind hleft (by decide) (RunsOn.newlineTokens_bind ?_ ?_)
  · exact Token.ne_of_apply hseparates rfl
  refine RunsOn.eat_bind_ne (Token.ne_of_apply hseparates rfl) (RunsOn.ite_false ?_)
  rw [← hbody, Listing.body, List.append_assoc]
  refine (hfirst.reads _ hbehind).bind ?_
  rw [hu.1] at hlist ⊢
  refine RunsOn.eat_bind_ne (Token.ne_of_apply hu.2 rfl) (RunsOn.ite_false ?_)
  refine hlist.bind fun _ => RunsOn.discard_bind ?_
  exact RunsOn.expect_bind hclose (by decide) (RunsOn.pure ⟨rfl, rfl⟩)

/-- A list in brackets. Its first item is an operand with the end of an item behind it or is read
anew; it is not the start of a range. -/
theorem decides_bracket (hg : g.SteadyAlone) (hremembers : g.remembers = false)
    (hitems : ∀ item ∈ l.items, item.ReadBy (expressionWith g))
    (hrounds : l.more.length < g.rounds + 1) (hleft : left.token = .punctuator .leftBracket)
    (hclose : close.token = .punctuator .rightBracket) :
    Decides l.Uniform (bracket g.deepen) (left :: (l.tokens ++ close :: w))
      ⟨.list (.items l.nodes), left.position⟩ w := by
  have hcontents : bracket g.deepen = bracketContents g.deepen := by
    rw [bracket, show g.deepen.remembers = false from hremembers]
    rfl
  have hcloses : close.token.closesList := by rw [hclose]; rfl
  have hends := exists_endOfInput_cons close hend
  have hbehind := l.endsItem_behind hitems hcloses hends
  have hfirst := hitems l.first (List.mem_cons_self ..)
  obtain ⟨t, ts, hbody, hseparates⟩ := Listing.exists_body hfirst (close :: w)
  -- behind the line break that the list may begin with
  have hanew : Decides l.Uniform (bracketItems left.position (list (g.rounds + 1) (expressionWith g)))
      (t :: ts) ⟨.list (.items l.nodes), left.position⟩ w := by
    rw [← hbody]
    exact decides_bracketItems (Listing.decides_list (l := { l with lead := none }) hitems hrounds
      hcloses hends) hclose
  rw [hcontents, Listing.tokens, List.append_assoc, hbody]
  refine RunsOn.expect_bind hleft (by decide) (RunsOn.newlineTokens_bind ?_ ?_)
  · exact Token.ne_of_apply hseparates rfl
  refine RunsOn.mark_bind fun c hc => RunsOn.peek_bind ?_
  rw [if_neg (Token.closesList_of_separates hseparates)]
  refine RunsOn.attempt_bind (fun s a s' hs hunary => ?_) fun _ => hanew
  rw [← hbody, Listing.body, List.append_assoc] at hs
  obtain ⟨u, us, hu, hdots, hwhole⟩ := exists_behind_unary hg hfirst hbehind hs hunary
  rw [hu]
  refine RunsOn.eat_bind_ne hdots (RunsOn.ite_false (RunsOn.isAtItemEnd_bind ?_))
  cases hstop : u.token.endsBracketItem with
  | false => exact RunsOn.ite_false (RunsOn.reset_bind hc hanew)
  | true =>
    obtain ⟨rfl, hrest⟩ := hwhole hstop
    rw [hrest]
    exact decides_bracketItems (l.decides_listBehind hitems hrounds hcloses hends) hclose

end Brackets

/-! ### Programs -/

theorem decides_end {contents : ItemList Node}
    (h : Decides c (list g.rounds g.expression) us contents [⟨.endOfInput, eof⟩]) :
    Decides c (programWith g) us ⟨contents.items⟩ [⟨.endOfInput, eof⟩] :=
  h.bind fun _ => RunsOn.isAt_bind_eq rfl (RunsOn.ite_true (RunsOn.pure ⟨rfl, rfl⟩))

/-- The only expression of a program. -/
theorem RunsOn.single {P : Node → List PlacedToken → Prop} {E : ParseError → Prop}
    (ht : t.token.separates = false) (hend : ∀ a vs, P a vs → vs = [⟨.endOfInput, eof⟩])
    (h : RunsOn g.expression (t :: us) P E) :
    RunsOn (programWith g) (t :: us) (fun program vs => ∃ a, P a vs ∧ program = ⟨[a]⟩) E := by
  refine RunsOn.bind (P := fun l vs => ∃ a, P a vs ∧ l.items = [a]) ?_ ?_
  · refine RunsOn.discard_bind (RunsOn.eat_bind_ne (Token.ne_of_apply ht rfl) ?_)
    refine RunsOn.peek_bind ?_
    rw [if_neg (Token.closesList_of_separates ht)]
    refine RunsOn.bind h fun a vs ha => ?_
    obtain rfl := hend a vs ha
    exact (reads_listFrom_close rfl).weaken (fun l ws hl => ⟨a, by rwa [hl.2], by rw [hl.1]⟩)
      fun _ => False.elim
  · rintro l vs ⟨a, ha, hitems⟩
    obtain rfl := hend a vs ha
    exact RunsOn.isAt_bind_eq rfl (RunsOn.ite_true (RunsOn.pure ⟨a, ha, by rw [hitems]⟩))

theorem decides_single (ht : t.token.separates = false)
    (h : Decides c g.expression (t :: us) node [⟨.endOfInput, eof⟩]) :
    Decides c (programWith g) (t :: us) ⟨[node]⟩ [⟨.endOfInput, eof⟩] := by
  refine (RunsOn.single ht (fun _ _ h => h.2.2) h).weaken ?_ fun _ h => h
  rintro _ _ ⟨_, ⟨hc, rfl, rfl⟩, rfl⟩
  exact ⟨hc, rfl, rfl⟩

/-- What stands around a list: nothing, or brackets of some kind at their positions. -/
inductive Surroundings where
  | program
  | parens (left right : Position)
  | brackets (left right : Position)
  | braces (left right : Position)

namespace Surroundings

/-- The tokens of a list in the surroundings. -/
def around : Surroundings → List PlacedToken → List PlacedToken
  | program, us => us
  | parens left right, us =>
    ⟨.punctuator .leftParen, left⟩ :: (us ++ [⟨.punctuator .rightParen, right⟩])
  | brackets left right, us =>
    ⟨.punctuator .leftBracket, left⟩ :: (us ++ [⟨.punctuator .rightBracket, right⟩])
  | braces left right, us =>
    ⟨.punctuator .leftBrace, left⟩ :: (us ++ [⟨.punctuator .rightBrace, right⟩])

/-- The body of the program that a list in the surroundings is. -/
def body : Surroundings → ItemList Node → List Node
  | program, contents => contents.items
  | parens left _, contents => [contents.grouped left]
  | brackets left _, contents => [⟨.list (.items contents.items), left⟩]
  | braces left _, contents => [⟨.block contents.items, left⟩]

end Surroundings

/-- Phrases that are deep enough for the tokens read all items. -/
theorem readBy_of_alone {depth : Nat} (halone : ∀ item ∈ l.items, item.Alone)
    (hdepth : l.tokens.length < depth) :
    (∀ item ∈ l.items, item.ReadBy (phrases depth).expression) ∧
      l.more.length < (phrases depth).rounds := by
  rw [phrases_rounds]
  exact ⟨fun item h => (halone item h).readBy (Nat.lt_of_le_of_lt (l.length_item_le h) hdepth),
    Nat.lt_of_le_of_lt l.length_more_le hdepth⟩

/-- A list in parentheses begins no head unless what follows a head is behind it. -/
theorem headless_parens (halone : ∀ item ∈ l.items, item.Alone) (hclose : close.token.closesList)
    (hu : u.token.followsHead = false) (hend : ∃ e ∈ u :: us, e.token = .endOfInput) (depth : Nat) :
    Headless (phrases depth) (.punctuator .leftParen ::
      (l.tokens ++ close :: u :: us).map (·.token)) := by
  have hended : .endOfInput ∈ (l.tokens ++ close :: u :: us).map (·.token) :=
    List.mem_map.2 (exists_endOfInput_append _ (exists_endOfInput_cons close hend))
  refine headless_of_beginsWithAtom (steadyAlone_phrases depth) rfl hended fun v vs hatom => ?_
  cases hatom with
  | parens inside =>
    have hbalanced := l.balanced fun item h => (halone item h).balanced
    have henclosed : Enclosed ((l.tokens ++ close :: u :: us).map (·.token))
        ((u :: us).map (·.token)) := ⟨_, close.token, List.map_append, hbalanced, hclose⟩
    rw [(List.cons.inj (inside.unique henclosed)).1]
    exact hu

/-- In all surroundings a list is read if and only if its separators are uniform. -/
theorem decides_around (halone : ∀ item ∈ l.items, item.Alone) (surroundings : Surroundings)
    {depth : Nat} (hdepth : (surroundings.around l.tokens).length < depth) :
    Decides l.Uniform (programWith (phrases (depth + 1)))
      (surroundings.around l.tokens ++ [⟨.endOfInput, eof⟩]) ⟨surroundings.body l.contents⟩
      [⟨.endOfInput, eof⟩] := by
  have hlength : l.tokens.length < depth := by
    refine Nat.lt_of_le_of_lt ?_ hdepth
    cases surroundings <;> simp [Surroundings.around]
    all_goals omega
  have hend (eof : Position) : ∃ e ∈ [(⟨.endOfInput, eof⟩ : PlacedToken)], e.token = .endOfInput :=
    ⟨_, List.mem_singleton_self _, rfl⟩
  cases surroundings with
  | program =>
    obtain ⟨hitems, hrounds⟩ := readBy_of_alone halone (Nat.lt_succ_of_lt hlength)
    exact decides_end (l.decides_list hitems hrounds rfl (hend eof))
  | parens left right =>
    obtain ⟨hitems, hrounds⟩ := readBy_of_alone halone hlength
    rw [Surroundings.around, List.cons_append, List.append_assoc]
    refine decides_single rfl (RunsOn.atom_expressionWith (fun _ _ h => h.2.2) rfl rfl
      (headless_parens halone rfl rfl (hend eof) depth) ?_)
    exact RunsOn.peek_bind (decides_paren (hend eof) hitems hrounds rfl rfl)
  | brackets left right =>
    obtain ⟨depth, rfl⟩ := Nat.exists_eq_add_one.2 (Nat.zero_lt_of_lt hlength)
    obtain ⟨hitems, hrounds⟩ := readBy_of_alone halone hlength
    rw [Surroundings.around, List.cons_append, List.append_assoc]
    refine decides_single rfl (RunsOn.atom_expressionWith (fun _ _ h => h.2.2) rfl rfl
      (Opening.headless (.plain rfl rfl rfl)) ?_)
    exact RunsOn.peek_bind (decides_bracket (hend eof) (steadyAlone_phrases depth)
      (phrases_remembers depth) hitems hrounds rfl rfl)
  | braces left right =>
    obtain ⟨hitems, hrounds⟩ := readBy_of_alone halone hlength
    rw [Surroundings.around, List.cons_append, List.append_assoc]
    refine decides_single rfl (RunsOn.atom_expressionWith (fun _ _ h => h.2.2) rfl rfl
      (Opening.headless (.plain rfl rfl rfl)) ?_)
    exact RunsOn.peek_bind (decides_brace (hend eof) hitems hrounds rfl rfl)

/-- **Lists behave alike in all surroundings.** A list of items that are expressions by themselves is
accepted if and only if its separators are uniform. -/
theorem parseTokens_around (l : Listing) (halone : ∀ item ∈ l.items, item.Alone)
    (surroundings : Surroundings) (eof : Position) :
    (l.Uniform → parseTokens (surroundings.around l.tokens ++ [⟨.endOfInput, eof⟩]) =
        .ok ⟨surroundings.body l.contents⟩) ∧
      (¬l.Uniform → ∃ e, parseTokens (surroundings.around l.tokens ++ [⟨.endOfInput, eof⟩]) =
        .error e ∧ e.note = some "cannot mix comma and newline separators") := by
  have hdecides : Decides l.Uniform _ (_ ++ [⟨.endOfInput, eof⟩]) _ _ :=
    decides_around halone surroundings (Nat.lt_add_one (surroundings.around l.tokens).length)
  generalize hts : surroundings.around l.tokens ++ [(⟨.endOfInput, eof⟩ : PlacedToken)] = ts
    at hdecides ⊢
  have hlength : ts.length = (surroundings.around l.tokens).length + 1 := by rw [← hts]; simp
  have hclosed : closeTokens ts = ts := EndsInput.closeTokens_eq (by rw [← hts]; simp [EndsInput])
  have hrun := hdecides (.ofTokens ts) hclosed
  rw [parseTokens_eq, hclosed, hlength]
  generalize programWith _ (.ofTokens ts) = result at hrun ⊢
  cases result with
  | ok program s =>
    obtain ⟨huniform, rfl, -⟩ := hrun
    exact ⟨fun _ => rfl, fun hmixed => absurd huniform hmixed⟩
  | error e s =>
    obtain ⟨hmixed, hnote⟩ := hrun
    exact ⟨fun huniform => absurd huniform hmixed, fun _ => ⟨e, rfl, hnote⟩⟩

/-- Two expressions on lines of their own are a tuple, and with a comma behind the last one they mix
separators. -/
theorem parseTokens_around_lines :
    parseTokens [⟨.punctuator .leftParen, ⟨1, 1, 0⟩⟩, ⟨.identifier "a", ⟨1, 2, 1⟩⟩,
        ⟨.newline, ⟨1, 3, 2⟩⟩, ⟨.punctuator .minus, ⟨2, 1, 3⟩⟩, ⟨.identifier "b", ⟨2, 2, 4⟩⟩,
        ⟨.punctuator .rightParen, ⟨2, 3, 5⟩⟩, ⟨.endOfInput, ⟨2, 4, 6⟩⟩] =
      .ok ⟨[⟨.tuple [⟨.identifier "a", ⟨1, 2, 1⟩⟩,
        ⟨.unary .negate ⟨.identifier "b", ⟨2, 2, 4⟩⟩, ⟨2, 1, 3⟩⟩], ⟨1, 1, 0⟩⟩]⟩ ∧
    ∃ e, parseTokens [⟨.identifier "a", ⟨1, 1, 0⟩⟩, ⟨.newline, ⟨1, 2, 1⟩⟩,
        ⟨.punctuator .minus, ⟨2, 1, 2⟩⟩, ⟨.identifier "b", ⟨2, 2, 3⟩⟩,
        ⟨.punctuator .comma, ⟨2, 3, 4⟩⟩, ⟨.endOfInput, ⟨2, 4, 5⟩⟩] = .error e ∧
      e.note = some "cannot mix comma and newline separators" := by
  have hname (p : Position) : Item.Alone ⟨[⟨.identifier "a", p⟩], ⟨.identifier "a", p⟩⟩ :=
    ⟨.start, _, rfl, rfl⟩
  have hnegation (p q : Position) : Item.Alone ⟨[⟨.punctuator .minus, p⟩, ⟨.identifier "b", q⟩],
      ⟨.unary .negate ⟨.identifier "b", q⟩, p⟩⟩ := ⟨.start, _, rfl, rfl⟩
  have halone (p q q' : Position) (joint : Joint) (tail : Option Joint) :
      ∀ item ∈ Listing.items ⟨none, ⟨[⟨.identifier "a", p⟩], ⟨.identifier "a", p⟩⟩,
        [(joint, ⟨[⟨.punctuator .minus, q⟩, ⟨.identifier "b", q'⟩],
          ⟨.unary .negate ⟨.identifier "b", q'⟩, q⟩⟩)], tail⟩, item.Alone :=
    List.forall_mem_cons.2 ⟨hname p, List.forall_mem_singleton.2 (hnegation q q')⟩
  refine ⟨(parseTokens_around _ (halone ⟨1, 2, 1⟩ ⟨2, 1, 3⟩ ⟨2, 2, 4⟩ (.newline ⟨1, 3, 2⟩) none)
      (.parens ⟨1, 1, 0⟩ ⟨2, 3, 5⟩) ⟨2, 4, 6⟩).1 ?_,
    (parseTokens_around _ (halone ⟨1, 1, 0⟩ ⟨2, 1, 2⟩ ⟨2, 2, 3⟩ (.newline ⟨1, 2, 1⟩)
      (some (.comma ⟨2, 3, 4⟩ none))) .program ⟨2, 4, 5⟩).2 ?_⟩
  · simp [Listing.Uniform, Uniform, Joint.kind]
  · simp [Listing.Uniform, Uniform, Joint.kind]

end DrakeSyntax
