import DrakeSyntax.Grammar.Expression
import DrakeSyntax.Proofs.Coupling
import DrakeSyntax.Proofs.Relocation
import DrakeSyntax.Proofs.WellFormed.Binding

/-!
# Productions side by side

Each production comes to outcomes that belong together in two runs when the phrases inside it do
(`Inner.Steady`). Trees belong together when they are the same with each position replaced by what
it has in common with those that it belongs together with (`Coupling.Views`).

* `matches_listWith`, `matches_twoKindList`: lists, where the runs do not stop.
* `matches_lambdaHead`, `matches_assignmentHead`: what comes before a lambda or an assignment. A
  lambda may begin with a typed name that has a value behind a colon, so where a key ends neither
  run may find an arrow behind such a value (`Cursor.Arrowless`).
* `matches_bracketContents`: bracketed phrases, which go back to their first item.
-/

namespace DrakeSyntax

open DrakeSyntax.Parser

namespace Coupling

/-- The values are the same up to what positions that belong together have not in common. -/
abbrev Views (K : Coupling) {α : Type} (relocate : (Position → Position) → α → α) (a b : α) : Prop :=
  relocate K.view a = relocate K.view b

variable {K : Coupling} {k : List Token} {α β γ δ : Type}

/-- Lists whose elements are the same from a view are the same from that view. -/
theorem map_eq_of_forall₂ {v : α → β} {as bs : List α}
    (h : List.Forall₂ (fun a b => v a = v b) as bs) : as.map v = bs.map v := by
  induction h with
  | nil => rfl
  | cons hab _ ih => rw [List.map_cons, List.map_cons, hab, ih]

/-! ### Lists -/

section Lists

variable {V : α → β → Prop} {W : γ → δ → Prop}

/-- The lists have items that are related by `V`, and both or none of them end with a comma. -/
structure ItemsMatch (V : α → β → Prop) (l : ItemList α) (l' : ItemList β) : Prop where
  items : List.Forall₂ V l.items l'.items
  trailingComma : l.trailingComma = l'.trailingComma

theorem ItemsMatch.cons {a : α} {b : β} {l : ItemList α} {l' : ItemList β} (hab : V a b)
    (h : ItemsMatch V l l') : ItemsMatch V (l.cons a) (l'.cons b) :=
  ⟨.cons hab h.items, h.trailingComma⟩

theorem matches_listFrom (hexact : K.Exact k) {item : Option α → Parser α}
    {item' : Option β → Parser β}
    (hitem : ∀ last last', Option.Rel V last last' → K.Matches k k V (item last) (item' last'))
    (r : Nat) (separator : Option Separator) {a : α} {b : β} (hab : V a b) :
    K.Matches k k (ItemsMatch V) (listFrom item r separator a) (listFrom item' r separator b) := by
  induction r generalizing separator a b with
  | zero => exact .pure ⟨.cons hab .nil, rfl⟩
  | succ r ih =>
    -- one more item, behind either separator
    have hmore (separator : Option Separator) :
        K.Matches k k (ItemsMatch V)
          (do let next ← item (some a)
              return (← listFrom item r separator next).cons a)
          (do let next ← item' (some b)
              return (← listFrom item' r separator next).cons b) := by
      refine (hitem _ _ (.some hab)).bind fun next next' hnext => ?_
      exact (ih separator hnext).bind fun l l' hl => .pure (hl.cons hab)
    unfold listFrom
    refine Matches.isAt_ite (.inl hexact) ?_ ?_
    · refine MatchesOn.ite (fun _ => (matches_reject (by decide)).on) fun _ => ?_
      refine MatchesOn.discard_advance_bind rfl ?_
      refine (matches_eat (.inl hexact) rfl).discard_bind ?_
      refine Matches.peek_bind (.inl hexact) fun t t' hmet => Matches.on ?_
      exact Matches.ite (by rw [hmet.token]) (fun _ => .pure ⟨.cons hab .nil, rfl⟩)
        fun _ => hmore _
    · refine Matches.isAt_ite (.inl hexact) ?_ (.pure ⟨.cons hab .nil, rfl⟩)
      refine MatchesOn.peekFollowing_bind hexact rfl fun following => ?_
      refine MatchesOn.ite (fun _ => ?_) fun _ => ?_
      · exact MatchesOn.discard_advance_bind rfl (.pure ⟨.cons hab .nil, rfl⟩)
      refine MatchesOn.ite (fun _ => ?_) fun _ => ?_
      · exact MatchesOn.discard_advance_bind rfl (matches_reject (by decide))
      refine MatchesOn.ite (fun _ => (matches_reject (by decide)).on) fun _ => ?_
      exact MatchesOn.discard_advance_bind rfl (hmore _)

theorem matches_listWith (hexact : K.Exact k) {item : Option α → Parser α}
    {item' : Option β → Parser β}
    (hitem : ∀ last last', Option.Rel V last last' → K.Matches k k V (item last) (item' last'))
    (r : Nat) : K.Matches k k (ItemsMatch V) (listWith r item) (listWith r item') := by
  refine (matches_eat (.inl hexact) rfl).discard_bind ?_
  refine Matches.peek_bind (.inl hexact) fun t t' hmet => Matches.on ?_
  refine Matches.ite (by rw [hmet.token]) (fun _ => .pure ⟨.nil, rfl⟩) fun _ => ?_
  exact (hitem _ _ .none).bind fun a b hab => matches_listFrom hexact hitem r none hab

variable {p : Parser α} {q : Parser β} {p' : Parser γ} {q' : Parser δ}

theorem matches_list (hexact : K.Exact k) (hp : K.Matches k k V p q) (r : Nat) :
    K.Matches k k (ItemsMatch V) (list r p) (list r q) :=
  matches_listWith hexact (fun _ _ _ => hp) r

theorem matches_listBehind (hexact : K.Exact k) (hp : K.Matches k k V p q) (r : Nat) {a : α}
    {b : β} (hab : V a b) :
    K.Matches k k (ItemsMatch V) (listBehind r a p) (listBehind r b q) :=
  matches_listFrom hexact (fun _ _ _ => hp) r none hab

theorem matches_delimited (hp : ∀ k, K.Matches k k V p q) (r : Nat) :
    K.Matches k k (List.Forall₂ V) (delimited r p) (delimited r q) := by
  refine Matches.eat_ite (.inr rfl) rfl ?_ ?_
  · refine (matches_list exact_cons (hp _) r).bind fun l l' hl => ?_
    exact (matches_expect (.inl exact_cons) rfl rfl).discard_bind (.pure hl.items)
  · exact (hp k).bind fun a b hab => .pure (.cons hab .nil)

theorem matches_eitherItem (hp : K.Matches k k V p q) (hp' : K.Matches k k W p' q')
    (last : Option (α ⊕ γ)) (last' : Option (β ⊕ δ))
    (hlast : Option.Rel (Sum.LiftRel V W) last last') :
    K.Matches k k (Sum.LiftRel V W) (eitherItem p p' last) (eitherItem q q' last') := by
  cases hlast with
  | none => exact hp.longer hp'
  | some h =>
    cases h with
    | inl h => exact hp.longer hp'
    | inr h => exact hp'.bind fun b b' hb => .pure (.inr hb)

/-- The lists of both kinds of item are related. -/
def ListsMatch (V : α → β → Prop) (W : γ → δ → Prop) (a : List α × List γ)
    (b : List β × List δ) : Prop :=
  List.Forall₂ V a.1 b.1 ∧ List.Forall₂ W a.2 b.2

theorem listsMatch_separate {as : List (α ⊕ γ)} {bs : List (β ⊕ δ)}
    (h : List.Forall₂ (Sum.LiftRel V W) as bs) : ListsMatch V W (separate as) (separate bs) := by
  induction h with
  | nil => exact ⟨.nil, .nil⟩
  | cons hab _ ih =>
    cases hab with
    | inl hab => exact ⟨.cons hab ih.1, ih.2⟩
    | inr hab => exact ⟨ih.1, .cons hab ih.2⟩

theorem matches_twoKindList (hexact : K.Exact k) (hp : K.Matches k k V p q)
    (hp' : K.Matches k k W p' q') (r : Nat) :
    K.Matches k k (ListsMatch V W) (twoKindList r p p') (twoKindList r q q') :=
  (matches_listWith hexact (matches_eitherItem hp hp') r).bind fun _ _ hl =>
    .pure (listsMatch_separate hl.items)

end Lists

end Coupling

open Coupling

/-- If the cursor is at a colon, no arrow stands behind what the parser reads behind the colon. -/
def Cursor.Arrowless (c : Cursor) (p : Parser Node) : Prop :=
  c.current.token = .punctuator .colon → ∀ s n r, s.cursor = c.advance → p s = .ok n r →
    r.cursor.current.token ≠ .punctuator .arrow

/-- The phrases inside come to outcomes that belong together. Where the runs are stopped, they do
not take the name in front for a parameter of a lambda. -/
structure Inner.Steady (g : Inner) (K : Coupling) : Prop where
  remembers : g.remembers = false
  keeps : KeepsTable g.type
  arrowless : ∀ {c c'}, K.stopped c c' → c.Arrowless g.expression ∧ c'.Arrowless g.expression
  expression : ∀ k, K.Matches k k (K.Views Node.relocate) g.expression g.expression
  unary : ∀ k, K.Matches k k (K.Views Node.relocate) g.unary g.unary
  type : ∀ k, K.Matches k k (K.Views TypeHint.relocate) g.type g.type

variable {K : Coupling} {k : List Token} {g : Inner}

/-! ### Types, parameters and targets -/

theorem matches_typeName (hg : g.Steady K) :
    K.Matches k k (K.Views TypeHint.relocate) (typeName g) (typeName g) := by
  refine matches_identifier.bind ?_
  rintro ⟨name, position⟩ ⟨_, position'⟩ ⟨rfl, hposition⟩
  change K.view position = K.view position' at hposition
  refine Matches.eat_ite (.inr rfl) rfl ?_ ?_
  · refine (matches_list exact_cons (hg.type _) g.rounds).bind fun l l' hl => ?_
    refine (matches_expect (.inl exact_cons) rfl rfl).discard_bind (.pure ?_)
    simp only [Views, TypeHint.relocate, TypeHint.relocateAll_eq_map, map_eq_of_forall₂ hl.items,
      hposition]
  · refine .pure ?_
    simp only [Views, TypeHint.relocate, hposition]

theorem matches_typeHint (hg : g.Steady K) :
    K.Matches k k (K.Views TypeHint.relocate) (typeHint g) (typeHint g) := by
  refine (matches_expect (.inr rfl) rfl rfl).discard_bind ?_
  refine (matches_typeName hg).bind fun hint hint' hhint => ?_
  exact (matches_expect (.inr rfl) rfl rfl).discard_bind (.pure hhint)

theorem stalls_typeHint : Stalls (typeHint g) := (Stalls.expect rfl).discard_bind

theorem matches_declaration (hg : g.Steady K) :
    K.Matches k k (K.Views Node.relocate) (declaration g) (declaration g) := by
  refine Matches.peek_bind (.inr fun t _ => ?_) fun start start' hstart => Matches.on ?_
  · exact ⟨Stalls.eat_bind rfl stalls_typeHint.bind, Stalls.eat_bind rfl stalls_typeHint.bind⟩
  refine (matches_eat (.inr rfl) rfl).bind ?_
  rintro constant _ rfl
  refine (matches_typeHint hg).bind fun hint hint' hhint => ?_
  refine matches_identifier.bind ?_
  rintro ⟨name, _⟩ ⟨_, _⟩ ⟨rfl, -⟩
  refine .pure ?_
  simp only [Views, Node.relocate, NodeKind.relocate, Declaration.relocate, hhint, hstart.position]

theorem matches_positionalParameter (hg : g.Steady K) :
    K.Matches k k (K.Views PositionalParameter.relocate) (positionalParameter g)
      (positionalParameter g) := by
  refine (matches_eat (.inr rfl) rfl).bind ?_
  rintro variadic _ rfl
  refine (matches_typeHint hg).bind fun hint hint' hhint => ?_
  refine matches_identifier.bind ?_
  rintro ⟨name, _⟩ ⟨_, _⟩ ⟨rfl, -⟩
  refine .pure ?_
  simp only [Views, PositionalParameter.relocate, hhint]

theorem matches_keywordParameter (hexact : K.Exact k) (hg : g.Steady K) :
    K.Matches k k (K.Views KeywordParameter.relocate) (keywordParameter g)
      (keywordParameter g) := by
  refine (matches_eat (.inr rfl) rfl).bind ?_
  rintro collector _ rfl
  refine (matches_typeHint hg).bind fun hint hint' hhint => ?_
  refine matches_identifier.bind ?_
  rintro ⟨name, _⟩ ⟨_, _⟩ ⟨rfl, -⟩
  refine Matches.ite Iff.rfl (fun _ => .pure ?_) fun _ => Matches.eat_ite (.inl hexact) rfl ?_ ?_
  · simp only [Views, KeywordParameter.relocate, KeywordParameterKind.relocate, hhint]
  · refine (hg.expression k).bind fun value value' hvalue => .pure ?_
    simp only [Views, KeywordParameter.relocate, KeywordParameterKind.relocate, hhint, hvalue]
  · refine .pure ?_
    simp only [Views, KeywordParameter.relocate, KeywordParameterKind.relocate, hhint]

/-- The parameters of two lambdas belong together. -/
structure LambdaHead.Matches (K : Coupling) (a b : LambdaHead) : Prop where
  positional : List.Forall₂ (K.Views PositionalParameter.relocate) a.positional b.positional
  keyword : List.Forall₂ (K.Views KeywordParameter.relocate) a.keyword b.keyword

theorem matches_lambdaBody (hg : g.Steady K) {head head' : LambdaHead}
    (hhead : LambdaHead.Matches K head head') {position position' : Position}
    (hposition : K.Near position position') :
    K.Matches k k (K.Views Node.relocate) (lambdaBody g head position)
      (lambdaBody g head' position') := by
  refine (hg.expression k).bind fun body body' hbody => .pure ?_
  simp only [Views, Node.relocate, NodeKind.relocate, KeywordParameter.relocateAll_eq_map,
    map_eq_of_forall₂ hhead.positional, map_eq_of_forall₂ hhead.keyword, hbody, hposition]

theorem matches_targetModifier : K.Matches k k (· = ·) targetModifier targetModifier := by
  refine Matches.eat_ite (.inr rfl) rfl (.pure rfl) ?_
  exact Matches.eat_ite (.inr rfl) rfl (.pure rfl) (.pure rfl)

theorem stalls_target_behind (start : PlacedToken) : Stalls (do
    let modifier ← targetModifier
    let hint ← if ← isAt (.punctuator .less) then some <$> typeHint g else pure none
    let (name, _) ← identifier
    return (⟨modifier, hint, name, start.position⟩ : Target)) := by
  refine Stalls.look_bind (a := none) (fun s hs => ?_) ?_
  -- no modifier is ahead
  · have hnonlocal := Stalls.current_ne (t := .keyword .nonlocal) hs rfl
    have hconst := Stalls.current_ne (t := .keyword .const) hs rfl
    unfold targetModifier
    rw [bind_of_ok (eat_of_ne hnonlocal)]
    exact bind_of_ok (eat_of_ne hconst)
  · exact Stalls.isAt_ite rfl (Stalls.look_bind (fun _ _ => rfl) Stalls.identifier.bind)

theorem matches_target (hg : g.Steady K) :
    K.Matches k k (K.Views Target.relocate) (target g) (target g) := by
  refine Matches.peek_bind (.inr fun t _ => ?_) fun start start' hstart => Matches.on ?_
  · exact ⟨stalls_target_behind t, stalls_target_behind t⟩
  refine matches_targetModifier.bind ?_
  rintro modifier _ rfl
  -- the name, whether a type stands in front of it or not
  have hname {hint hint' : Option TypeHint}
      (hhint : hint.map (TypeHint.relocate K.view) = hint'.map (TypeHint.relocate K.view)) :
      K.Matches k k (K.Views Target.relocate)
        (do let (name, _) ← identifier
            return (⟨modifier, hint, name, start.position⟩ : Target))
        (do let (name, _) ← identifier
            return (⟨modifier, hint', name, start'.position⟩ : Target)) := by
    refine matches_identifier.bind ?_
    rintro ⟨name, _⟩ ⟨_, _⟩ ⟨rfl, -⟩
    refine .pure ?_
    simp only [Views, Target.relocate, hhint, hstart.position]
  refine Matches.isAt_ite (.inr rfl) (Matches.on ?_) ?_
  · refine ((matches_typeHint hg).map fun hint hint' hhint => ?_).bind fun _ _ h => hname h
    simp only [Option.map_some, hhint]
  · exact (Matches.pure (V := fun a b => a.map (TypeHint.relocate K.view) =
      b.map (TypeHint.relocate K.view)) rfl).bind fun _ _ => hname

theorem matches_targets (hg : g.Steady K) {what : String} (hwhat : OneLine what) :
    K.Matches k k (List.Forall₂ (K.Views Target.relocate)) (targets g what) (targets g what) := by
  refine (matches_delimited (fun _ => matches_target hg) g.rounds).bind fun ts ts' hts => ?_
  have hempty : ts.isEmpty = true ↔ ts'.isEmpty = true := by
    cases hts with
    | nil => exact Iff.rfl
    | cons _ _ => exact Iff.rfl
  exact Matches.ite hempty (fun _ => matches_failExpecting (.singleton hwhat)) fun _ => .pure hts

/-- What comes before the values of two assignments belongs together. -/
structure AssignmentHead.Matches (K : Coupling) (a b : AssignmentHead) : Prop where
  targets : List.Forall₂ (K.Views Target.relocate) a.targets b.targets
  operator : a.operator = b.operator
  operatorToken : K.Met a.operatorToken b.operatorToken

theorem isPlain_of_assignmentOperator? {t : Token} {operator : AssignmentOperator}
    (h : assignmentOperator? t = some operator) : t.isPlain := by
  unfold assignmentOperator? at h
  split at h
  all_goals first
    | rfl
    | cases h

theorem assignmentOperator?_of_halts {t : Token} (h : t.halts) :
    assignmentOperator? t = none := by
  rcases Token.halts_cases h with rfl | rfl | rfl | rfl | rfl | rfl | rfl <;> rfl

theorem matches_assignmentHead (hg : g.Steady K) :
    K.Matches k k (AssignmentHead.Matches K) (assignmentHead g) (assignmentHead g) := by
  refine (matches_targets hg (by decide)).bind fun ts ts' hts => ?_
  refine Matches.peek_bind (.inr fun t ht => ?_) fun t t' hmet => ?_
  · rw [assignmentOperator?_of_halts ht]
    exact ⟨Stalls.failExpecting _, Stalls.failExpecting _⟩
  rw [← hmet.token]
  cases hoperator : assignmentOperator? t.token with
  | some operator =>
    have hshift := Token.shift_of_isPlain (isPlain_of_assignmentOperator? hoperator) k
    exact MatchesOn.discard_advance_bind hshift (.pure ⟨hts, rfl, hmet⟩)
  | none => exact (matches_failExpecting (by decide)).on

theorem matches_assignmentValue (hg : g.Steady K) {head head' : AssignmentHead}
    (hhead : AssignmentHead.Matches K head head') {position position' : Position}
    (hposition : K.Near position position') :
    K.Matches k k (K.Views Node.relocate) (assignmentValue g head position)
      (assignmentValue g head' position') := by
  have hlength := hhead.targets.length_eq
  have hconst : head.targets.any (·.modifier == some .const) =
      head'.targets.any (·.modifier == some .const) := by
    have hmap := congrArg (List.map Target.modifier) (map_eq_of_forall₂ hhead.targets)
    simp only [List.map_map] at hmap
    have hmodifier : Target.modifier ∘ Target.relocate K.view = Target.modifier := rfl
    rw [hmodifier] at hmap
    have hany (ts : List Target) : ts.any (·.modifier == some .const) =
        (ts.map Target.modifier).any (· == some .const) := by
      rw [List.any_map]
      rfl
    rw [hany, hany, hmap]
  unfold assignmentValue
  rw [← hhead.operator, ← hlength, ← hconst]
  refine Matches.ite Iff.rfl (fun _ => matches_rejectAt hhead.operatorToken (by decide)) fun _ => ?_
  refine Matches.ite Iff.rfl (fun _ => matches_rejectAt hhead.operatorToken (by decide)) fun _ => ?_
  refine (hg.expression k).bind fun value value' hvalue => .pure ?_
  simp only [Views, Node.relocate, NodeKind.relocate, map_eq_of_forall₂ hhead.targets, hvalue, hposition]

/-! ### Phrases in brackets, braces and parentheses -/

theorem matches_isAtItemEnd (hexact : K.Exact k) :
    K.Matches k k (· = ·) isAtItemEnd isAtItemEnd := by
  refine Matches.peek_bind (.inl hexact) fun t t' hmet => Matches.on ?_
  rw [hmet.token]
  split <;> exact .pure rfl

theorem matches_bracketItems {position position' : Position} (hposition : K.Near position position')
    {items items' : Parser (ItemList Node)}
    (h : K.Matches (.punctuator .rightBracket :: k) (.punctuator .rightBracket :: k)
      (ItemsMatch (K.Views Node.relocate)) items items') :
    K.Matches (.punctuator .rightBracket :: k) k (K.Views Node.relocate)
      (bracketItems position items) (bracketItems position' items') := by
  refine h.bind fun l l' hl => ?_
  refine (matches_expect (.inl exact_cons) rfl rfl).discard_bind (.pure ?_)
  simp only [Views, Node.relocate, NodeKind.relocate, ListLiteral.relocate,
    Node.relocateAll_eq_map, map_eq_of_forall₂ hl.items, hposition]

/-- Optional nodes that belong together. -/
abbrev Coupling.ViewsOption (K : Coupling) (a b : Option Node) : Prop :=
  Node.relocateOptional K.view a = Node.relocateOptional K.view b

theorem matches_some {l : List Token} {p q : Parser Node}
    (h : K.Matches k l (K.Views Node.relocate) p q) :
    K.Matches k l K.ViewsOption (some <$> p) (some <$> q) := by
  refine h.map fun a b hab => ?_
  simp only [ViewsOption, Node.relocateOptional, hab]

theorem matches_rangeClose {start start' : Node} (hstart : K.Views Node.relocate start start')
    {stop stop' step step' : Option Node} (hstop : K.ViewsOption stop stop')
    (hstep : K.ViewsOption step step') {position position' : Position}
    (hposition : K.Near position position') :
    K.Matches (.punctuator .rightBracket :: k) k (K.Views Node.relocate)
      (do discard (eat .newline)
          discard (expect (.punctuator .rightBracket))
          return (⟨.list (.range start stop step), position⟩ : Node))
      (do discard (eat .newline)
          discard (expect (.punctuator .rightBracket))
          return (⟨.list (.range start' stop' step'), position'⟩ : Node)) := by
  refine (matches_eat (.inl exact_cons) rfl).discard_bind ?_
  refine (matches_expect (.inl exact_cons) rfl rfl).discard_bind (.pure ?_)
  simp only [Views, Node.relocate, NodeKind.relocate, ListLiteral.relocate, hstart, hstop, hstep,
    hposition]

theorem matches_rangeBehind (hg : g.Steady K) {start start' : Node}
    (hstart : K.Views Node.relocate start start') {position position' : Position}
    (hposition : K.Near position position') :
    K.Matches (.punctuator .rightBracket :: k) k (K.Views Node.relocate)
      (rangeBehind g start position) (rangeBehind g start' position') := by
  refine (matches_isAtItemEnd exact_cons).bind ?_
  rintro atEnd _ rfl
  refine Matches.join Iff.rfl (fun _ => .pure (V := K.ViewsOption) rfl)
    (fun _ => matches_some (hg.unary _)) ?_
  intro stop stop' hstop
  refine Matches.eat_ite (.inl exact_cons) rfl ?_ ?_
  · refine (matches_eat (.inl exact_cons) rfl).discard_bind ?_
    refine (matches_some (hg.unary _)).bind fun step step' hstep => ?_
    exact matches_rangeClose hstart hstop hstep hposition
  · exact matches_rangeClose hstart hstop rfl hposition

/-- Both runs go back to where the first item began, or neither does. -/
theorem matches_bracketContents (hg : g.Steady K) :
    K.Matches k k (K.Views Node.relocate) (bracketContents g) (bracketContents g) := by
  -- the list, which every way of giving up the range comes back to
  have hlist {position position' : Position} (hposition : K.Near position position') :
      K.Matches (.punctuator .rightBracket :: k) k (K.Views Node.relocate)
        (bracketItems position (list g.rounds g.expression))
        (bracketItems position' (list g.rounds g.expression)) :=
    matches_bracketItems hposition (matches_list exact_cons (hg.expression _) g.rounds)
  refine (matches_expect (.inr rfl) rfl rfl).bind fun position position' hposition => ?_
  refine (matches_eat (.inl exact_cons) rfl).discard_bind ?_
  refine Matches.mark_bind fun c c' hmark => ?_
  refine Matches.peek_bind (.inl exact_cons) fun t t' hmet => Matches.on ?_
  refine Matches.ite (by rw [hmet.token]) (fun _ => hlist hposition) fun _ => ?_
  refine (hg.unary _).lax.attempt_bind (fun first first' hfirst => ?_) fun _ _ => hlist hposition
  refine Matches.eat_ite (.inl exact_cons) rfl (matches_rangeBehind hg hfirst hposition) ?_
  refine (matches_isAtItemEnd exact_cons).bind ?_
  rintro atEnd _ rfl
  refine Matches.ite Iff.rfl (fun _ => ?_) fun _ => ?_
  · exact matches_bracketItems hposition
      (matches_listBehind exact_cons (hg.expression _) g.rounds hfirst)
  -- the cursors go back to where the first item began
  · exact Matches.reset_bind hmark (hlist hposition)

theorem matches_bracket (hg : g.Steady K) :
    K.Matches k k (K.Views Node.relocate) (bracket g) (bracket g) := by
  simp only [bracket, hg.remembers, Bool.false_eq_true, if_false]
  exact matches_bracketContents hg

theorem matches_pair (hexact : K.Exact k) (hg : g.Steady K) :
    K.Matches k k (K.Views Pair.relocate) (pair g) (pair g) := by
  refine (hg.expression k).bind fun key key' hkey => ?_
  refine (matches_expect (.inl hexact) rfl rfl).discard_bind ?_
  refine (hg.expression k).bind fun value value' hvalue => .pure ?_
  simp only [Views, Pair.relocate, hkey, hvalue]

theorem matches_brace (hg : g.Steady K) :
    K.Matches k k (K.Views Node.relocate) (brace g) (brace g) := by
  refine (matches_expect (.inr rfl) rfl rfl).bind fun position position' hposition => ?_
  refine (matches_eat (.inl exact_cons) rfl).discard_bind ?_
  refine Matches.eat_ite (.inl exact_cons) rfl (.pure ?_) ?_
  · simp only [Views, Node.relocate, NodeKind.relocate, Node.relocateAll, hposition]
  refine (hg.expression _).bind fun first first' hfirst => ?_
  refine Matches.eat_ite (.inl exact_cons) rfl ?_ ?_
  · refine (hg.expression _).bind fun value value' hvalue => ?_
    have hpair : K.Views Pair.relocate ⟨first, value⟩ ⟨first', value'⟩ := by
      simp only [Views, Pair.relocate, hfirst, hvalue]
    refine (matches_listBehind exact_cons (matches_pair exact_cons hg) g.rounds hpair).bind ?_
    intro pairs pairs' hpairs
    refine (matches_expect (.inl exact_cons) rfl rfl).discard_bind (.pure ?_)
    simp only [Views, Node.relocate, NodeKind.relocate, Pair.relocateAll_eq_map,
      map_eq_of_forall₂ hpairs.items, hposition]
  · refine (matches_listBehind exact_cons (hg.expression _) g.rounds hfirst).bind ?_
    intro items items' hitems
    refine (matches_expect (.inl exact_cons) rfl rfl).discard_bind (.pure ?_)
    simp only [Views, Node.relocate, NodeKind.relocate, Node.relocateAll_eq_map,
      map_eq_of_forall₂ hitems.items, hposition]

theorem matches_blockItems (hg : g.Steady K) :
    K.Matches k k (List.Forall₂ (K.Views Node.relocate)) (blockItems g) (blockItems g) := by
  refine (matches_expect (.inr rfl) rfl rfl).discard_bind ?_
  refine (matches_list exact_cons (hg.expression _) g.rounds).bind fun items items' hitems => ?_
  exact (matches_expect (.inl exact_cons) rfl rfl).discard_bind (.pure hitems.items)

theorem matches_block (hg : g.Steady K) :
    K.Matches k k (K.Views Node.relocate) (block g) (block g) := by
  have hstall (start : PlacedToken) :
      Stalls (do return (⟨.block (← blockItems g), start.position⟩ : Node)) :=
    (Stalls.expect rfl).discard_bind.bind
  refine Matches.peek_bind (.inr fun t _ => ⟨hstall t, hstall t⟩) fun t t' hmet => Matches.on ?_
  refine (matches_blockItems hg).bind fun items items' hitems => .pure ?_
  simp only [Views, Node.relocate, NodeKind.relocate, Node.relocateAll_eq_map,
    map_eq_of_forall₂ hitems, hmet.position]

theorem matches_parenthesized (hg : g.Steady K) :
    K.Matches k k
      (fun a b => ItemsMatch (K.Views Node.relocate) a.1 b.1 ∧ K.Near a.2 b.2)
      (parenthesized g) (parenthesized g) := by
  refine (matches_expect (.inr rfl) rfl rfl).bind fun position position' hposition => ?_
  refine (matches_list exact_cons (hg.expression _) g.rounds).bind fun items items' hitems => ?_
  exact (matches_expect (.inl exact_cons) rfl rfl).discard_bind (.pure ⟨hitems, hposition⟩)

/-- Tuples at positions that belong together. -/
theorem views_tuple {items items' : List Node}
    (h : List.Forall₂ (K.Views Node.relocate) items items') {position position' : Position}
    (hposition : K.Near position position') :
    K.Views Node.relocate ⟨.tuple items, position⟩ ⟨.tuple items', position'⟩ := by
  simp only [Views, Node.relocate, NodeKind.relocate, Node.relocateAll_eq_map,
    map_eq_of_forall₂ h, hposition]

theorem matches_paren (hg : g.Steady K) :
    K.Matches k k (K.Views Node.relocate) (paren g) (paren g) := by
  refine (matches_parenthesized hg).bind ?_
  rintro ⟨⟨items, trailing⟩, position⟩ ⟨⟨items', trailing'⟩, position'⟩ ⟨⟨hitems, hcomma⟩, hposition⟩
  change trailing = trailing' at hcomma
  subst hcomma
  have htuple := views_tuple hitems hposition
  cases hitems with
  | nil => exact .pure htuple
  | cons hitem hrest =>
    cases hrest with
    | cons _ _ => exact .pure htuple
    | nil =>
      -- a single item stands for itself unless a comma follows
      cases trailing with
      | false => exact .pure hitem
      | true => exact .pure htuple

theorem matches_tuple (hg : g.Steady K) :
    K.Matches k k (K.Views Node.relocate) (tuple g) (tuple g) := by
  refine (matches_parenthesized hg).bind ?_
  rintro ⟨items, position⟩ ⟨items', position'⟩ ⟨hitems, hposition⟩
  exact .pure (views_tuple hitems.items hposition)

end DrakeSyntax
