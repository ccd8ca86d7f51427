import DrakeSyntax.Proofs.Progress
import DrakeSyntax.Proofs.Separators.Item

/-!
# Keys

An expression by itself is read alike as a key, which is in front of a colon with another such
expression behind it (`Item.Alone.reads_key`). The run is coupled with one in front of a comma. Where
the key ends, a colon may be taken for the one of a parameter with a value, but then no arrow is found
behind the value, since that is read to its end.

This has to hold of the phrases of every depth, while only those that are deep enough read the value.
So the phrases that are coupled are made of ones that are deep enough for the value already, and that
read nothing in front of the colon (`Inner.upTo`).
-/

namespace DrakeSyntax

open DrakeSyntax.Parser

variable {g g' : Inner} {n m : Nat} {α : Type} {us w : List PlacedToken} {p : Position}

/-! ### Reading in a state -/

/-- The tokens ahead of a cursor as a walk, with anything remembered. -/
def Walk.ahead (c : Cursor) (h : c.Ended) : Walk where
  tokens := List.replicate c.index ⟨.newline, .start⟩ ++ c.rest
  hasEnd := by
    obtain ⟨t, ht, hend⟩ := h
    exact ⟨t, List.mem_append_right _ ht, hend⟩
  floor := c.index
  table _ := True

theorem Cursor.on_ahead (c : Cursor) (h : c.Ended) : c.On (.ahead c h) where
  rest := by
    simp only [Walk.ahead, List.drop_append, List.drop_replicate, List.length_replicate,
      Nat.sub_self, List.replicate_zero, List.nil_append, List.drop_zero]
  floor_le := Nat.le_refl _
  le_finish := Walk.le_finish_of_replicate rfl

/-- What one parser does with given tokens, another one does that agrees with it. -/
theorem RunsOn.of_agree {q q' : Parser α} {P : α → List PlacedToken → Prop} {E : ParseError → Prop}
    (hagree : ∀ w : Walk, Agree w us.length m q q') (hend : ∃ t ∈ us, t.token = .endOfInput)
    (h : RunsOn q us P E) : RunsOn q' us P E := by
  intro s hs
  have hrun := h s hs
  have hended : s.cursor.Ended := by rwa [Cursor.Ended, hs]
  have halike := hagree (.ahead s.cursor hended) s.cursor s.brackets s.brackets
    (s.cursor.on_ahead hended) (Nat.le_of_eq (congrArg List.length hs)) trivial
  generalize q s = r, q' s = r' at hrun halike ⊢
  cases halike with
  | ok a on room table => exact hrun
  | error e on table => exact hrun

/-- What a parser reads in front of `w`, it reads in front of `w'` if the runs are coupled. -/
theorem ReadsOn.elsewhere {q : Parser Node} {ts w' : List PlacedToken} {node : Node}
    (hw : EndsExpression w) (hw' : EndsExpression w')
    (hexcerpt : ∀ offset, (Coupling.excerpt hw hw' offset).Matches [] []
      ((Coupling.excerpt hw hw' offset).Views Node.relocate) q q)
    (hbalanced : Balanced (ts.map (·.token))) (h : ReadsOn q (ts ++ w) node w) :
    ReadsOn q (ts ++ w') node w' := by
  intro s hs
  obtain ⟨r, hrun, hrest⟩ := h.exists_run (s := ⟨⟨0, ts ++ w⟩, ∅⟩) rfl
  obtain ⟨r', hrun', hrest'⟩ := Coupling.Matches.elsewhere hw hw' hexcerpt hbalanced rfl hrun hrest hs
    (Nat.zero_le _)
  rw [hrun']
  exact ⟨rfl, hrest'⟩

/-! ### Phrases for the tokens from some place on -/

/-- Runs a parser where at most `n` tokens are ahead. -/
def Parser.upTo (n : Nat) (q : Parser α) : Parser α := fun s =>
  if s.cursor.rest.length ≤ n then q s else failExpecting [] s

/-- The phrases for at most `n` tokens. With more tokens ahead no phrase is possible. -/
def Inner.upTo (n : Nat) : Inner where
  rounds := n
  remembers := false
  expression := Parser.upTo n (phrases n).expression
  unary := Parser.upTo n (phrases n).unary
  type := Parser.upTo n (phrases n).type

theorem Takes.upTo {w : Walk} {q q' : Parser α} (h : Takes w n q q') :
    Takes w n q (Parser.upTo n q') := by
  intro m hm c b b' hc hlength hb
  rw [Parser.upTo, if_pos (Nat.le_trans hlength hm)]
  exact h m hm c b b' hc hlength hb

theorem KeepsTable.upTo {q : Parser α} (h : KeepsTable q) : KeepsTable (Parser.upTo n q) := by
  intro s
  by_cases hn : s.cursor.rest.length ≤ n
  · rw [Parser.upTo, if_pos hn]
    exact h s
  · rw [Parser.upTo, if_neg hn]
    rfl

/-- Bracketed phrases agree as well where nothing is remembered. -/
theorem Inner.Alike.agree {w : Walk} (h : g.Alike w n g') (hg : g.remembers = false)
    (hg' : g'.remembers = false) : g.Agree w n g' where
  toAlike := h
  bracket := by
    rw [bracket, bracket, if_neg (by rw [hg]; exact Bool.false_ne_true),
      if_neg (by rw [hg']; exact Bool.false_ne_true)]
    exact fun _ hm => agree_bracketContents (h.mono (Nat.le_of_lt_succ hm))

/-- **With at most `n` tokens ahead, the phrases for them are deep enough**, and so are those made of
them. -/
theorem Inner.alike_upTo (w : Walk) (n depth : Nat) :
    (phrases (n + depth)).Alike w n ((upTo n).nest depth) := by
  induction depth with
  | zero =>
    have hphrases : (phrases n).Agree w n (phrases n) :=
      Inner.agree_nest rfl rfl (Nat.le_refl n) (Nat.le_refl n)
    exact {
      rounds := hphrases.rounds
      rounds' := Nat.le_refl n
      expression := hphrases.expression.upTo
      unary := hphrases.unary.upTo
      type := hphrases.type.upTo }
  | succ depth ih =>
    have hagree := ih.agree (phrases_remembers _) (Inner.nest_remembers _ depth)
    exact hagree.deepen.mono (Nat.le_succ n)

/-! ### In front of a colon -/

theorem endsExpression_colon (hend : ∃ e ∈ us, e.token = .endOfInput) :
    EndsExpression (⟨.punctuator .colon, p⟩ :: us) where
  halts := ⟨rfl, fun hnewline => by cases hnewline⟩
  ended := exists_endOfInput_cons _ hend

/-- In front of more than `n` tokens, both runs fail. -/
theorem Coupling.matches_upTo {ws ws' : List PlacedToken} (hws : EndsExpression ws)
    (hws' : EndsExpression ws') (hn : n < ws.length) (hn' : n < ws'.length) {offset : Nat}
    {k : List Token} {V : α → α → Prop} (q : Parser α) :
    (excerpt hws hws' offset).Matches k k V (Parser.upTo n q) (Parser.upTo n q) := by
  rintro s s' ⟨-, ts, hrest, hrest', -⟩
  have hmore : ¬s.cursor.rest.length ≤ n := by
    rw [hrest, List.length_append]
    omega
  have hmore' : ¬s'.cursor.rest.length ≤ n := by
    rw [hrest', List.length_append]
    omega
  rw [Parser.upTo, Parser.upTo, if_neg hmore, if_neg hmore']
  exact .error trivial trivial

namespace Item.Alone

variable {item key value : Item} {depth : Nat}

/-- The item is read in front of anything that ends it. -/
theorem reads (h : item.Alone) (hw : EndsItem w) (hdepth : (item.tokens ++ w).length ≤ depth) :
    ReadsOn (phrases depth).expression (item.tokens ++ w) item.node w := by
  obtain ⟨e, he, -⟩ := hw.ended
  have hpos : 0 < w.length := List.length_pos_of_mem he
  rw [List.length_append] at hdepth
  exact (h.readBy (by omega)).reads w hw

/-- The value is read by phrases for it and what is behind it. -/
theorem reads_value (hvalue : value.Alone) (hw : EndsItem w) (depth : Nat) :
    ReadsOn ((Inner.upTo (value.tokens ++ w).length).nest depth).expression (value.tokens ++ w)
      value.node w :=
  (hvalue.reads hw (Nat.le_add_right _ depth)).of_agree
    (fun walk => (Inner.alike_upTo walk _ depth).expression.weak)
    (exists_endOfInput_append _ hw.ended)

/-- No arrow stands behind a value. -/
theorem arrowless (hvalue : value.Alone) (hw : EndsItem w) (depth : Nat) {c : Cursor}
    (hc : c.rest = ⟨.punctuator .colon, p⟩ :: (value.tokens ++ w)) :
    c.Arrowless ((Inner.upTo (value.tokens ++ w).length).nest depth).expression := by
  intro _ s node r hs hrun
  have hrest : s.cursor.rest = value.tokens ++ w := by
    rw [hs]
    exact rest_advance (s := ⟨c, ∅⟩) hc Token.noConfusion
  have hreads := hvalue.reads_value hw depth s hrest
  rw [hrun] at hreads
  exact hw.current_ne hreads.2 rfl

/-- Phrases of every depth come to the same in front of a comma and in front of a colon. -/
theorem steady_upTo (hvalue : value.Alone) (hw : EndsItem w)
    (hend : ∃ e ∈ value.tokens ++ w, e.token = .endOfInput) (offset depth : Nat) :
    ((Inner.upTo (value.tokens ++ w).length).nest depth).Steady
      (.excerpt (endsItem_comma (p := p) hend).toEndsExpression
        (endsExpression_colon (p := p) hend) offset) := by
  have harrow (depth : Nat) {c c' : Cursor}
      (hstop : c.rest = ⟨.punctuator .comma, p⟩ :: (value.tokens ++ w) ∧
        c'.rest = ⟨.punctuator .colon, p⟩ :: (value.tokens ++ w)) :
      c.Arrowless ((Inner.upTo (value.tokens ++ w).length).nest depth).expression ∧
        c'.Arrowless ((Inner.upTo (value.tokens ++ w).length).nest depth).expression :=
    ⟨fun h => absurd h ((endsItem_comma hend).current_ne hstop.1 rfl),
      hvalue.arrowless hw depth hstop.2⟩
  induction depth with
  | zero =>
    have hmore : (value.tokens ++ w).length < (value.tokens ++ w).length + 1 := Nat.lt_succ_self _
    exact {
      remembers := rfl
      keeps := (steadyAlone_phrases _ ⟨0, []⟩ []).keeps.upTo
      arrowless := harrow 0
      expression := fun _ => Coupling.matches_upTo _ _ hmore hmore _
      unary := fun _ => Coupling.matches_upTo _ _ hmore hmore _
      type := fun _ => Coupling.matches_upTo _ _ hmore hmore _ }
  | succ depth ih => exact ih.deepen (harrow (depth + 1))

/-- **A key is read alike.** -/
theorem reads_key (hkey : key.Alone) (hvalue : value.Alone) (hw : EndsItem w)
    (hdepth : (key.tokens ++ ⟨.punctuator .colon, p⟩ :: (value.tokens ++ w)).length ≤ depth) :
    ReadsOn (phrases depth).expression
      (key.tokens ++ ⟨.punctuator .colon, p⟩ :: (value.tokens ++ w)) key.node
      (⟨.punctuator .colon, p⟩ :: (value.tokens ++ w)) := by
  have hend := exists_endOfInput_append value.tokens hw.ended
  have hahead (t : PlacedToken) := exists_endOfInput_append key.tokens (exists_endOfInput_cons t hend)
  have hcomma : EndsItem (⟨.punctuator .comma, p⟩ :: (value.tokens ++ w)) := endsItem_comma hend
  -- to the phrases that are coupled, then from the comma to the colon, then back
  have hreads : ReadsOn ((Inner.upTo (value.tokens ++ w).length).nest depth).expression
      (key.tokens ++ ⟨.punctuator .comma, p⟩ :: (value.tokens ++ w)) key.node
      (⟨.punctuator .comma, p⟩ :: (value.tokens ++ w)) := by
    have hdepth' : (key.tokens ++ ⟨.punctuator .comma, p⟩ :: (value.tokens ++ w)).length ≤ depth := by
      simpa using hdepth
    exact (hkey.reads hcomma hdepth').of_agree
      (fun walk => (Inner.agree_nest rfl rfl hdepth' hdepth').expression.weak) (hahead _)
  have hbehind := ReadsOn.elsewhere hcomma.toEndsExpression (endsExpression_colon hend)
    (fun offset => (hvalue.steady_upTo hw hend offset depth).expression []) hkey.balanced hreads
  exact hbehind.of_agree (fun walk => (Inner.agree_nest rfl rfl hdepth hdepth).expression.weak)
    (hahead _)

end Item.Alone

end DrakeSyntax
