import DrakeSyntax.Proofs.LooseBreaks.Rules

/-!
# Phrases overlook line breaks that may be left out

Productions that are given phrases which overlook the line breaks (`Inner.Overlooks`) overlook them
themselves. A list takes such a line break for a separator and fails at the keyword behind it, and
without the line break it stops in front of the keyword; the token that closes the list is in
neither place (`Overlooks.closed`).

* `overlooks_listWith`, `overlooks_twoKindList`: lists, which may stop early.
* `overlooks_target`, `overlooks_lambdaHead`: phrases that introduce names.
-/

namespace DrakeSyntax

open DrakeSyntax.Parser

variable {xs : List LooseToken} {α β : Type}

/-! ### Lists -/

section Lists

variable {p : Parser α} {q : Parser β} {r : Nat}

theorem Token.closesList_of_atSeam {t : Token} (h : t.atSeam) : t.closesList = false := by
  rcases Token.atSeam_cases h with rfl | rfl | rfl | rfl | rfl <;> rfl

theorem Balks.listItem {item : Parser α} {p : Parser β} (h : Balks item) {f : α → Parser β} :
    Balks (peek >>= fun t => if t.token.closesList then p else item >>= f) := by
  refine Balks.peek_bind fun t ht => ?_
  rw [Token.closesList_of_atSeam ht]
  exact h.bind

/-- In front of a keyword that goes on a list ends. The line break in front of it would separate two
items, and no item begins with the keyword. -/
theorem sameEnd_listFrom_seam {item : Option α → Parser α} (hbalks : ∀ last, Balks (item last))
    (separator : Option Separator) (last : α) {s s' : ParserState}
    (hseam : s.cursor.Seam xs s'.cursor) :
    SameEnd xs True (listFrom item (r + 1) separator last s)
      (listFrom item (r + 1) separator last s') := by
  have hne {k : Token} (hk : k.atSeam = false) : s.cursor.current.token ≠ k :=
    Balks.ne_of_atSeam hseam.atSeam hk
  have hne' {k : Token} (hk : k.atSeam = false) : s'.cursor.current.token ≠ k :=
    Balks.ne_of_atSeam hseam.atSeam' hk
  unfold listFrom
  rw [Overlooks.isAt_ite_of_ne (hne rfl), Overlooks.isAt_ite_of_ne hseam.current_ne,
    Overlooks.isAt_ite_of_ne (hne' rfl), bind_of_ok (isAt_run _ s'), beq_iff_eq.2 hseam.newline,
    if_pos rfl, bind_of_ok (rfl : peekFollowing s' = .ok s'.cursor.following s'), hseam.following,
    Token.closesList_of_atSeam hseam.atSeam, if_neg Bool.false_ne_true, if_neg (hne rfl)]
  by_cases hseparator : separator = some .comma
  · rw [if_pos hseparator]
    exact .early trivial hseam.continues
  · obtain ⟨e, r', he⟩ := (hbalks (some last)).error
      (s := { s' with cursor := s'.cursor.advance }) (by rw [hseam.behind]; exact hseam.atSeam)
    rw [if_neg hseparator, discard_bind, bind_of_ok (rfl : advance s' = .ok s'.cursor.current _),
      bind_of_error he]
    exact .early trivial hseam.continues

/-- The line break behind an item may separate it from the next one. -/
theorem overlooks_listFrom {item : Option α → Parser α} (hitem : ∀ last, Overlooks xs (item last))
    (hbalks : ∀ last, Balks (item last)) (separator : Option Separator) (last : α) :
    OverlooksOr xs True (listFrom item r separator last) := by
  induction r generalizing separator last with
  | zero => exact Overlooks.pure
  | succ r ih =>
    -- one more item
    have hmore (separator : Option Separator) : OverlooksOr xs True (do
        let next ← item (some last)
        return (← listFrom item r separator next).cons last) := by
      refine (hitem _).bind fun next => ?_
      rw [bind_pure_comp]
      exact Overlooks.map (ih separator next)
    intro s s' habreast
    rcases habreast.cases with hmeets | hseam
    · suffices h : OverlooksAt xs True s.cursor.current (listFrom item (r + 1) separator last) from
        h s s' hmeets rfl
      unfold listFrom
      refine OverlooksAt.isAt_ite (fun _ => ?_) (OverlooksAt.isAt_ite (fun hnewline => ?_) ?_)
      · refine OverlooksAt.ite (Overlooks.reject _).at (OverlooksAt.discard_advance_bind ?_)
        refine Overlooks.eat_newline_bind (hbalks _).listItem.refuses fun t => ?_
        exact OverlooksAt.peek_bind (OverlooksAt.ite Overlooks.pure.at (hmore _).at)
      · refine OverlooksAt.peekFollowing_bind hnewline fun following => ?_
        refine OverlooksAt.ite (OverlooksAt.discard_advance_bind Overlooks.pure) ?_
        refine OverlooksAt.ite (OverlooksAt.discard_advance_bind (Overlooks.reject _)) ?_
        exact OverlooksAt.ite (Overlooks.reject _).at (OverlooksAt.discard_advance_bind (hmore _))
      · exact Overlooks.pure.at
    · exact sameEnd_listFrom_seam hbalks separator last hseam

theorem balks_eitherItem (hp : Balks p) (hq : Balks q) (last : Option (α ⊕ β)) :
    Balks (eitherItem p q last) := by
  match last with
  | some (.inr _) => exact hq.bind
  | some (.inl _) | none => exact hp.longer hq

theorem overlooks_eitherItem (hp : Overlooks xs p) (hq : Overlooks xs q) (last : Option (α ⊕ β)) :
    Overlooks xs (eitherItem p q last) := by
  match last with
  | some (.inr _) => exact hq.bind fun _ => Overlooks.pure
  | some (.inl _) | none => exact hp.longer hq

theorem overlooks_listWith {item : Option α → Parser α} (hitem : ∀ last, Overlooks xs (item last))
    (hbalks : ∀ last, Balks (item last)) : OverlooksOr xs True (listWith r item) := by
  refine Overlooks.eat_newline_bind (hbalks none).listItem.refuses fun t => ?_
  refine OverlooksAt.peek_bind (OverlooksAt.ite Overlooks.pure.at (OverlooksOr.at ?_))
  exact (hitem none).bind fun first => overlooks_listFrom hitem hbalks none first

theorem overlooks_list (hp : Overlooks xs p) (hbalks : Balks p) : OverlooksOr xs True (list r p) :=
  overlooks_listWith (fun _ => hp) fun _ => hbalks

theorem overlooks_listBehind (hp : Overlooks xs p) (hbalks : Balks p) (first : α) :
    OverlooksOr xs True (listBehind r first p) :=
  overlooks_listFrom (fun _ => hp) (fun _ => hbalks) none first

/-- A token that closes the list follows. -/
theorem Overlooks.closed {f : α → Parser β} {k : Token} (hp : OverlooksOr xs True p)
    (hk : k.atSeam = false) (hf : ∀ a, Overlooks xs (f a)) : Overlooks xs (do
      let a ← p
      discard (Parser.expect k)
      f a) := by
  refine Overlooks.close hp (fun a => (Balks.expect hk).discard_bind.refuses) fun a => ?_
  exact (Overlooks.expect hk).discard_bind (hf a)

theorem overlooks_twoKindList (hp : Overlooks xs p) (hq : Overlooks xs q) (hp' : Balks p)
    (hq' : Balks q) : OverlooksOr xs True (twoKindList r p q) := by
  unfold twoKindList
  rw [bind_pure_comp]
  exact Overlooks.map (overlooks_listWith (overlooks_eitherItem hp hq) (balks_eitherItem hp' hq'))

theorem overlooks_delimited (hp : Overlooks xs p) (hbalks : Balks p) :
    Overlooks xs (delimited r p) := by
  refine Overlooks.eat_bind rfl ?_ (hp.bind fun a => Overlooks.pure)
  exact Overlooks.closed (overlooks_list hp hbalks) rfl fun l => Overlooks.pure

theorem overlooks_twoKindDelimited (hp : Overlooks xs p) (hq : Overlooks xs q) (hp' : Balks p)
    (hq' : Balks q) : Overlooks xs (twoKindDelimited r p q) := by
  refine Overlooks.eat_bind rfl ?_ ((hp.longer hq).bind fun item => Overlooks.pure)
  exact Overlooks.closed (overlooks_twoKindList hp hq hp' hq') rfl fun lists => Overlooks.pure

end Lists

/-- The phrases inside overlook the line breaks, and none of them begins at a line break or at a
keyword that goes on. An operand in front of such a keyword is an expression. -/
structure Inner.Overlooks (xs : List LooseToken) (g : Inner) : Prop where
  forgetful : g.remembers = false
  expression : DrakeSyntax.Overlooks xs g.expression
  unary : DrakeSyntax.Overlooks xs g.unary
  type : DrakeSyntax.Overlooks xs g.type
  balksExpression : Balks g.expression
  balksUnary : Balks g.unary
  balksType : Balks g.type
  operand {s s' r : ParserState} {n : Node} : s.cursor.Ended → g.unary s = .ok n s' →
    s'.cursor.current.token.continues → r.cursor = s.cursor →
      ∃ r', g.expression r = .ok n r' ∧ r'.cursor = s'.cursor

variable {g : Inner}

/-! ### Types, parameters and targets -/

theorem balks_typeName : Balks (typeName g) := Balks.identifier.bind

theorem overlooks_typeName (hg : g.Overlooks xs) : Overlooks xs (typeName g) := by
  refine Overlooks.identifier.bind ?_
  rintro ⟨name, position⟩
  refine Overlooks.eat_bind rfl ?_ Overlooks.pure
  exact Overlooks.closed (overlooks_list hg.type hg.balksType) rfl fun l => Overlooks.pure

theorem balks_typeHint : Balks (typeHint g) := (Balks.expect rfl).discard_bind

theorem overlooks_typeHint (hg : g.Overlooks xs) : Overlooks xs (typeHint g) := by
  refine (Overlooks.expect rfl).discard_bind ((overlooks_typeName hg).bind fun hint => ?_)
  exact (Overlooks.expect rfl).discard_bind Overlooks.pure

theorem balks_declaration : Balks (declaration g) :=
  Balks.peek_bind fun _ _ => Balks.eat_bind rfl balks_typeHint.bind

theorem overlooks_declaration (hg : g.Overlooks xs) : Overlooks xs (declaration g) := by
  refine Overlooks.peek_bind balks_declaration fun start => OverlooksOr.at ?_
  refine (Overlooks.eat rfl).bind fun constant => (overlooks_typeHint hg).bind fun hint => ?_
  exact Overlooks.identifier.bind fun found => Overlooks.pure

theorem balks_positionalParameter : Balks (positionalParameter g) :=
  Balks.eat_bind rfl balks_typeHint.bind

theorem overlooks_positionalParameter (hg : g.Overlooks xs) :
    Overlooks xs (positionalParameter g) := by
  refine (Overlooks.eat rfl).bind fun variadic => (overlooks_typeHint hg).bind fun hint => ?_
  exact Overlooks.identifier.bind fun found => Overlooks.pure

theorem balks_keywordParameter : Balks (keywordParameter g) :=
  Balks.eat_bind rfl balks_typeHint.bind

theorem overlooks_keywordParameter (hg : g.Overlooks xs) :
    Overlooks xs (keywordParameter g) := by
  refine (Overlooks.eat rfl).bind fun collector => (overlooks_typeHint hg).bind fun hint => ?_
  refine Overlooks.identifier.bind fun found => Overlooks.ite Overlooks.pure ?_
  exact Overlooks.eat_bind rfl (hg.expression.bind fun value => Overlooks.pure) Overlooks.pure

theorem overlooks_lambdaHead (hg : g.Overlooks xs) : Overlooks xs (lambdaHead g) := by
  have hlists := overlooks_twoKindDelimited (r := g.rounds) (overlooks_positionalParameter hg)
    (overlooks_keywordParameter hg) balks_positionalParameter balks_keywordParameter
  exact hlists.bind fun lists => (Overlooks.expect rfl).discard_bind Overlooks.pure

theorem overlooks_lambdaBody (hg : g.Overlooks xs) (head : LambdaHead) (position : Position) :
    Overlooks xs (lambdaBody g head position) := hg.expression.bind fun _ => Overlooks.pure

theorem overlooks_targetModifier : Overlooks xs targetModifier :=
  Overlooks.eat_bind rfl Overlooks.pure (Overlooks.eat_bind rfl Overlooks.pure Overlooks.pure)

theorem balks_target : Balks (target g) := by
  refine Balks.peek_bind fun start _ => ?_
  unfold targetModifier
  rw [bind_assoc]
  refine Balks.eat_bind rfl ?_
  simp only [Bool.false_eq_true, if_false, bind_assoc]
  refine Balks.eat_bind rfl ?_
  simp only [Bool.false_eq_true, if_false, pure_bind]
  exact Balks.isAt_bind rfl Balks.identifier.bind

theorem overlooks_target (hg : g.Overlooks xs) : Overlooks xs (target g) := by
  refine Overlooks.peek_bind balks_target fun start => OverlooksOr.at ?_
  refine overlooks_targetModifier.bind fun modifier => ?_
  refine Overlooks.isAt_ite rfl (fun t _ => OverlooksOr.at ?_) ?_
  · refine Overlooks.bind (Overlooks.map (overlooks_typeHint hg)) fun hint => ?_
    exact Overlooks.identifier.bind fun found => Overlooks.pure
  · exact Overlooks.identifier.bind fun found => Overlooks.pure

theorem overlooks_targets (hg : g.Overlooks xs) (what : String) :
    Overlooks xs (targets g what) := by
  refine (overlooks_delimited (overlooks_target hg) balks_target).bind fun ts => ?_
  exact Overlooks.ite (Overlooks.failExpecting _) Overlooks.pure

theorem overlooks_assignmentHead (hg : g.Overlooks xs) : Overlooks xs (assignmentHead g) := by
  refine (overlooks_targets hg _).bind fun ts => Overlooks.peek_bind ?_ fun t => ?_
  · refine Balks.peek_bind fun t ht => ?_
    have hnone : assignmentOperator? t.token = none := by
      rcases Token.atSeam_cases ht with h | h | h | h | h <;> rw [h] <;> rfl
    simp only [hnone]
    exact Balks.failExpecting _
  · cases assignmentOperator? t.token with
    | none => exact (Overlooks.failExpecting _).at
    | some operator => exact OverlooksAt.discard_advance_bind Overlooks.pure

theorem overlooks_assignmentValue (hg : g.Overlooks xs) (head : AssignmentHead)
    (position : Position) : Overlooks xs (assignmentValue g head position) := by
  refine Overlooks.ite (Overlooks.rejectAt _ _) (Overlooks.ite (Overlooks.rejectAt _ _) ?_)
  exact hg.expression.bind fun value => Overlooks.pure

end DrakeSyntax
