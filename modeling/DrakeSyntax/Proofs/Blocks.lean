import DrakeSyntax.Proofs.Brackets

/-!
# Blocks as operands and blocks of forms

What stands in braces is read in two ways. As an operand it is a mapping or a block, which the token
behind the first expression decides (`brace`); behind a keyword that wants a block it is a list of
expressions (`blockItems`). The two agree on blocks: one of them returns expressions if and only if
the other one returns the block of them, from any state and into the same state
(`blockItems_eq_ok_iff`).
-/

namespace DrakeSyntax

open DrakeSyntax.Parser

/-- From the state `s`, `p` returns expressions if and only if `q` returns a block of them, and they
leave the same state. -/
def SameBlock (s : ParserState) (p : Parser (List Node)) (q : Parser Node) : Prop :=
  ∀ items s', p s = .ok items s' ↔ ∃ position, q s = .ok ⟨.block items, position⟩ s'

/-- The expressions of a block, behind its opening brace and a line break. -/
def Parser.blockRest (g : Inner) : Parser (List Node) := do
  let t ← peek
  if t.token.closesList then
    discard (expect (.punctuator .rightBrace))
    return []
  else
    let items ← listBehind g.rounds (← g.expression) g.expression
    discard (expect (.punctuator .rightBrace))
    return items.items

/-- A phrase in braces behind the first expression, where a block and a mapping part. -/
def Parser.braceBehind (g : Inner) (position : Position) (first : Node) : Parser Node := do
  if ← eat (.punctuator .colon) then
    let value ← g.expression
    let pairs ← listBehind g.rounds ⟨first, value⟩ (pair g)
    discard (expect (.punctuator .rightBrace))
    return ⟨.mapping pairs.items, position⟩
  else
    let items ← listBehind g.rounds first g.expression
    discard (expect (.punctuator .rightBrace))
    return ⟨.block items.items, position⟩

variable {α : Type} {g : Inner} {s r r' : ParserState} {p : Parser (List Node)} {q : Parser Node}

namespace SameBlock

/-- What two parsers begin with alike does not matter. -/
theorem bind {first : Parser α} {f : α → Parser (List Node)} {f' : α → Parser Node}
    (h : ∀ a s₁, first s = .ok a s₁ → SameBlock s₁ (f a) (f' a)) :
    SameBlock s (first >>= f) (first >>= f') := by
  intro items s'
  constructor
  · intro hrun
    obtain ⟨a, s₁, ha, hrun⟩ := bind_eq_ok hrun
    obtain ⟨position, hrun⟩ := (h a s₁ ha items s').1 hrun
    exact ⟨position, (bind_of_ok ha).trans hrun⟩
  · rintro ⟨position, hrun⟩
    obtain ⟨a, s₁, ha, hrun⟩ := bind_eq_ok hrun
    exact (bind_of_ok ha).trans ((h a s₁ ha items s').2 ⟨position, hrun⟩)

/-- Both come to the same expressions. -/
theorem of_ok {items : List Node} {position : Position} (hp : p s = .ok items r)
    (hq : q s = .ok ⟨.block items, position⟩ r) : SameBlock s p q := by
  intro items' s'
  rw [hp, hq]
  constructor
  · rintro ⟨⟩
    exact ⟨position, rfl⟩
  · rintro ⟨_, ⟨⟩⟩
    rfl

/-- Neither of the two returns a block. -/
theorem of_neither (hp : ∀ items s', p s ≠ .ok items s')
    (hq : ∀ node s', q s = .ok node s' → ∀ items, node.kind ≠ .block items) : SameBlock s p q := by
  intro items s'
  constructor
  · exact fun hrun => absurd hrun (hp items s')
  · rintro ⟨position, hrun⟩
    exact absurd rfl (hq _ s' hrun items)

/-- Parsers that run alike may be put in. -/
theorem congr {p' : Parser (List Node)} {q' : Parser Node} (h : SameBlock s p q) (hp : p' s = p s)
    (hq : q' s = q s) : SameBlock s p' q' := by
  intro items s'
  rw [hp, hq]
  exact h items s'

end SameBlock

/-- A block behind its first expression, and a phrase in braces there. With a colon next, the latter
is a mapping, and the former does not go on. -/
theorem sameBlock_braceBehind (g : Inner) (position : Position) (first : Node) (s : ParserState) :
    SameBlock s (do
        let items ← listBehind g.rounds first g.expression
        discard (expect (.punctuator .rightBrace))
        return items.items)
      (braceBehind g position first) := by
  by_cases hcolon : s.cursor.current.token = .punctuator .colon
  · refine .of_neither (fun items s' hrun => ?_) fun node s' hrun items => ?_
    · -- the list ends in front of the colon
      have hlist : listBehind g.rounds first g.expression s = .ok ⟨[first], false⟩ s :=
        listFrom_run (by simp [hcolon]) (by simp [hcolon])
      rw [bind_of_ok hlist, discard_bind, bind_of_error (expect_of_ne (by simp [hcolon]))] at hrun
      cases hrun
    · unfold braceBehind at hrun
      rw [bind_of_ok (eat_of_eq hcolon), if_pos rfl] at hrun
      obtain ⟨value, s₁, -, hrun⟩ := bind_eq_ok hrun
      obtain ⟨pairs, s₂, -, hrun⟩ := bind_eq_ok hrun
      rw [discard_bind] at hrun
      obtain ⟨_, s₃, -, hrun⟩ := bind_eq_ok hrun
      cases hrun
      exact NodeKind.noConfusion
  · refine SameBlock.congr (q := do
      let items ← listBehind g.rounds first g.expression
      discard (expect (.punctuator .rightBrace))
      return ⟨.block items.items, position⟩) (.bind fun l s₁ _ => ?_) rfl ?_
    · rw [discard_bind, discard_bind]
      exact .bind fun _ _ _ => .of_ok rfl rfl
    · unfold braceBehind
      rw [bind_of_ok (eat_of_ne hcolon)]
      rfl

/-- A block behind its opening brace and a line break, and a phrase in braces there, if no expression
begins where a list is closed. -/
theorem sameBlock_blockRest (position : Position)
    (hcloses : s.cursor.current.token.closesList → ∃ e s', g.expression s = .error e s') :
    SameBlock s (blockRest g) (do
      if ← eat (.punctuator .rightBrace) then return ⟨.block [], position⟩
      else braceBehind g position (← g.expression)) := by
  have hpeek : peek s = .ok s.cursor.current s := rfl
  by_cases hbrace : s.cursor.current.token = .punctuator .rightBrace
  · -- there is no expression
    refine @SameBlock.of_ok _ _ _ _ [] position ?_ (bind_of_ok (eat_of_eq hbrace))
    unfold blockRest
    rw [bind_of_ok hpeek, if_pos (by rw [hbrace]; rfl), discard_bind,
      bind_of_ok (expect_of_eq hbrace)]
    rfl
  by_cases hclose : s.cursor.current.token.closesList
  · -- something else is closed
    obtain ⟨e, r, hexpression⟩ := hcloses hclose
    refine .of_neither (fun items s' hrun => ?_) fun node s' hrun => ?_
    · unfold blockRest at hrun
      rw [bind_of_ok hpeek, if_pos hclose, discard_bind, bind_of_error (expect_of_ne hbrace)] at hrun
      cases hrun
    · rw [bind_of_ok (eat_of_ne hbrace), if_neg Bool.false_ne_true,
        bind_of_error hexpression] at hrun
      cases hrun
  · refine SameBlock.congr (p := do
      let first ← g.expression
      let items ← listBehind g.rounds first g.expression
      discard (expect (.punctuator .rightBrace))
      return items.items) (q := do braceBehind g position (← g.expression))
      (.bind fun first s₁ _ => sameBlock_braceBehind g position first s₁) ?_ ?_
    · unfold blockRest
      rw [bind_of_ok hpeek, if_neg hclose]
    · rw [bind_of_ok (eat_of_ne hbrace), if_neg Bool.false_ne_true]

theorem blockItems_eq (g : Inner) :
    blockItems g = (do
      discard (expect (.punctuator .leftBrace))
      discard (eat .newline)
      blockRest g) := by
  unfold blockItems list listWith blockRest
  simp only [discard_bind, bind_assoc]
  refine congrArg (_ >>= ·) (funext fun _ => congrArg (_ >>= ·) (funext fun _ =>
    congrArg (_ >>= ·) (funext fun t => ?_)))
  split
  · rfl
  · simp only [bind_assoc]
    rfl

theorem brace_eq (g : Inner) :
    brace g = (do
      let position ← expect (.punctuator .leftBrace)
      discard (eat .newline)
      if ← eat (.punctuator .rightBrace) then return ⟨.block [], position⟩
      else braceBehind g position (← g.expression)) := rfl

/-- No expression begins where a list is closed, however deep phrases may nest. -/
theorem error_of_closesList (remembers : Bool) (depth : Nat)
    (h : s.cursor.current.token.closesList) :
    ∃ e s', ((Inner.none remembers).nest depth).expression s = .error e s' := by
  cases depth with
  | zero => exact ⟨_, _, rfl⟩
  | succ depth =>
    obtain ⟨e, s', hrun⟩ := stalls_expressionWith (g := (Inner.none remembers).nest depth) s
      (Token.halts_of_separates (Token.separates_of_closesList h))
    exact ⟨e, s', hrun⟩

/-- **The two ways to read a block agree.** Whatever stands ahead, whatever is remembered and however
deep phrases may nest, the block of a form is read as some expressions if and only if an operand in
braces is read as the block of these, and both leave the same state. -/
theorem blockItems_eq_ok_iff (remembers : Bool) (depth : Nat) (s s' : ParserState)
    (items : List Node) :
    blockItems ((Inner.none remembers).nest depth) s = .ok items s' ↔
      ∃ position, brace ((Inner.none remembers).nest depth) s = .ok ⟨.block items, position⟩ s' := by
  have hsame : SameBlock s (blockItems ((Inner.none remembers).nest depth))
      (brace ((Inner.none remembers).nest depth)) := by
    rw [blockItems_eq, brace_eq, discard_bind]
    refine .bind fun position s₁ _ => ?_
    rw [discard_bind, discard_bind]
    refine .bind fun _ s₂ _ => ?_
    exact sameBlock_blockRest position fun h => error_of_closesList remembers depth h
  exact hsame items s'

end DrakeSyntax
