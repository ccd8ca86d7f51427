import DrakeSyntax.Proofs.Step

/-!
# What a parser does with given tokens

A statement about a parser and the tokens ahead of it: it succeeds with a result and with tokens
left that are as stated, or it fails where failing is allowed (`Runs`). Positions are arbitrary
in all of it. Rules compose such statements along the way parsers are composed, so that a proof
goes through a production token by token.

* `Reads`: the parser succeeds and leaves given tokens.
* `Fails`: the parser fails.
* `ReadsOr.bind`: what comes behind a phrase starts where the phrase ends.
* `reads_longer_inl`, `reads_longer_inr`: which of two phrases is the longer one.
-/

namespace DrakeSyntax

open DrakeSyntax.Parser

/-- The tokens from the cursor on. -/
def ParserState.tokens (s : ParserState) : List Token := s.cursor.rest.map (·.token)

/-- With the tokens `l` ahead, the parser succeeds so that `Q` holds of its result and of the
tokens left, or it fails and `E` allows that. -/
def Runs {α : Type} (p : Parser α) (l : List Token) (Q : α → List Token → Prop) (E : Prop) : Prop :=
  ∀ s : ParserState, s.tokens = l →
    match p s with
    | .ok a s' => s'.cursor.index + s'.tokens.length = s.cursor.index + l.length ∧ Q a s'.tokens
    | .error _ _ => E

/-- With the tokens `l` ahead, the parser succeeds with a result that has the property `Q` and
leaves the tokens `k`, or it fails and `E` allows that. -/
abbrev ReadsOr (E : Prop) {α : Type} (p : Parser α) (l k : List Token) (Q : α → Prop) : Prop :=
  Runs p l (fun a m => m = k ∧ Q a) E

/-- With the tokens `l` ahead, the parser succeeds with a result that has the property `Q` and
leaves the tokens `k`. -/
abbrev Reads {α : Type} (p : Parser α) (l k : List Token) (Q : α → Prop) : Prop :=
  ReadsOr False p l k Q

/-- With the tokens `l` ahead, the parser fails. -/
abbrev Fails {α : Type} (p : Parser α) (l : List Token) : Prop := Runs p l (fun _ _ => False) True

variable {α β : Type} {p : Parser α} {l k m : List Token} {t t' : Token} {E E' : Prop}
variable {Q : α → Prop} {R : β → List Token → Prop}

namespace ParserState

variable {s : ParserState}

theorem current_of_tokens (h : s.tokens = t :: l) : s.cursor.current.token = t := by
  obtain ⟨⟨index, rest⟩, brackets⟩ := s
  cases rest with
  | nil => cases h
  | cons u us => exact (List.cons.inj h).1

/-- Taking a token leaves the tokens behind it. -/
theorem advance_of_tokens (h : s.tokens = t :: l) (ht : t ≠ .endOfInput) :
    ParserState.tokens { s with cursor := s.cursor.advance } = l ∧
      s.cursor.advance.index = s.cursor.index + 1 := by
  obtain ⟨⟨index, rest⟩, brackets⟩ := s
  cases rest with
  | nil => cases h
  | cons u us =>
    obtain ⟨rfl, rfl⟩ := List.cons.inj h
    simp only [Cursor.advance, if_neg ht, tokens, and_self]

end ParserState

namespace Runs

theorem weaken {Q Q' : α → List Token → Prop} (h : Runs p l Q E) (hQ : ∀ a m, Q a m → Q' a m)
    (hE : E → E') : Runs p l Q' E' := by
  intro s hs
  have hrun := h s hs
  cases hp : p s with
  | ok a s' =>
    rw [hp] at hrun
    exact ⟨hrun.1, hQ a _ hrun.2⟩
  | error e s' =>
    rw [hp] at hrun
    exact hE hrun

theorem pure {a : α} {Q : α → List Token → Prop} (h : Q a l) : Runs (Pure.pure a) l Q E := by
  intro s hs
  subst hs
  exact ⟨rfl, h⟩

theorem bind {Q : α → List Token → Prop} {f : α → Parser β} (hp : Runs p l Q E)
    (hf : ∀ a m, Q a m → Runs (f a) m R E) : Runs (p >>= f) l R E := by
  intro s hs
  have hrun := hp s hs
  simp only [Bind.bind, EStateM.bind]
  cases hp' : p s with
  | ok a s₁ =>
    rw [hp'] at hrun
    have hrest := hf a _ hrun.2 s₁ rfl
    simp only
    cases hf' : f a s₁ with
    | ok b s₂ =>
      rw [hf'] at hrest
      exact ⟨hrest.1.trans hrun.1, hrest.2⟩
    | error e s₂ =>
      rw [hf'] at hrest
      exact hrest
  | error e s₁ =>
    rw [hp'] at hrun
    exact hrun

/-- A composition whose first part only looks at the state. -/
theorem look_bind {a : ParserState → α} {f : α → Parser β} (hp : ∀ s, p s = .ok (a s) s)
    (hf : ∀ s : ParserState, s.tokens = l → Runs (f (a s)) l R E) : Runs (p >>= f) l R E := by
  intro s hs
  -- the state is the same before and after
  have hrest := hf s hs s hs
  rwa [bind_of_ok (hp s)]

/-- A composition whose first part takes the token at the cursor. -/
theorem take_bind {a : ParserState → α} {f : α → Parser β} (ht : t ≠ .endOfInput)
    (hp : ∀ s : ParserState, s.cursor.current.token = t →
      p s = .ok (a s) { s with cursor := s.cursor.advance })
    (hf : ∀ s : ParserState, s.cursor.current.token = t → Runs (f (a s)) l R E) :
    Runs (p >>= f) (t :: l) R E := by
  intro s hs
  have hcurrent := ParserState.current_of_tokens hs
  obtain ⟨htokens, hindex⟩ := ParserState.advance_of_tokens hs ht
  have hrest := hf s hcurrent _ htokens
  rw [bind_of_ok (hp s hcurrent)]
  rw [hindex] at hrest
  rwa [List.length_cons, ← Nat.succ_add_eq_add_succ]

theorem ite_true {p q : Parser β} (h : Runs p l R E) :
    Runs (if true = true then p else q) l R E := h

theorem ite_false {p q : Parser β} (h : Runs q l R E) :
    Runs (if false = true then p else q) l R E := h

/-! ### Single tokens -/

theorem peek_bind {f : PlacedToken → Parser β}
    (h : ∀ position, Runs (f ⟨t, position⟩) (t :: l) R E) : Runs (peek >>= f) (t :: l) R E := by
  refine look_bind (a := fun s => s.cursor.current) (fun _ => rfl) fun s hs => ?_
  have hcurrent := ParserState.current_of_tokens hs
  exact hcurrent ▸ h s.cursor.current.position

/-- The token that is looked at does not matter. -/
theorem peek_bind_any {f : PlacedToken → Parser β} (h : ∀ t, Runs (f t) l R E) :
    Runs (peek >>= f) l R E :=
  look_bind (a := fun s => s.cursor.current) (fun _ => rfl) fun _ _ => h _

theorem isAt_bind {f : Bool → Parser β} (h : Runs (f (t' == t)) (t' :: l) R E) :
    Runs (isAt t >>= f) (t' :: l) R E := by
  refine look_bind (isAt_run t) fun s hs => ?_
  rwa [ParserState.current_of_tokens hs]

theorem advance_bind {f : PlacedToken → Parser β} (ht : t ≠ .endOfInput)
    (h : ∀ position, Runs (f ⟨t, position⟩) l R E) : Runs (advance >>= f) (t :: l) R E := by
  refine take_bind (a := fun s => s.cursor.current) ht (fun _ _ => rfl) fun s hs => ?_
  have hrest := h s.cursor.current.position
  rwa [← hs] at hrest

theorem eat_bind {f : Bool → Parser β} (ht : t ≠ .endOfInput) (h : Runs (f true) l R E) :
    Runs (eat t >>= f) (t :: l) R E :=
  take_bind ht (fun _ hs => eat_of_eq hs) fun _ _ => h

theorem eat_bind_ne {f : Bool → Parser β} (ht : t' ≠ t) (h : Runs (f false) (t' :: l) R E) :
    Runs (eat t >>= f) (t' :: l) R E := by
  intro s hs
  have hrest := h s hs
  rwa [bind_of_ok (eat_of_ne (ParserState.current_of_tokens hs ▸ ht))]

theorem expect_bind {f : Position → Parser β} (ht : t ≠ .endOfInput)
    (h : ∀ position, Runs (f position) l R E) : Runs (expect t >>= f) (t :: l) R E :=
  take_bind ht (fun _ hs => expect_of_eq hs) fun s _ => h s.cursor.current.position

theorem identifier_bind {f : String × Position → Parser β} {name : String}
    (h : ∀ position, Runs (f (name, position)) l R E) :
    Runs (identifier >>= f) (.identifier name :: l) R E :=
  take_bind (by simp) (fun _ hs => identifier_of_eq hs) fun s _ => h s.cursor.current.position

theorem skipNewlineBefore_bind {k : Keyword} {f : Bool → Parser β} (ht : t ≠ .newline)
    (h : Runs (f (t == .keyword k)) (t :: l) R E) :
    Runs (skipNewlineBefore k >>= f) (t :: l) R E := by
  intro s hs
  have hrest := h s hs
  have hcurrent := ParserState.current_of_tokens hs
  -- no newline is ahead, so nothing is skipped
  have hrun : skipNewlineBefore k s = .ok (t == .keyword k) s := by
    simp only [skipNewlineBefore, Bind.bind, EStateM.bind, isAt_run, hcurrent, beq_false_of_ne ht,
      peekFollowing, Bool.false_and, Bool.false_eq_true, if_false]
  rwa [bind_of_ok hrun]

theorem discard_bind {f : Unit → Parser β} (h : Runs (p >>= fun _ => f ()) l R E) :
    Runs (discard p >>= f) l R E := by
  rwa [Parser.discard_bind]

theorem map {Q : α → List Token → Prop} {g : α → β} (h : Runs p l Q E)
    (hQ : ∀ a m, Q a m → R (g a) m) : Runs (g <$> p) l R E := by
  rw [← bind_pure_comp]
  exact h.bind fun a m ha => .pure (hQ a m ha)

theorem mark_bind {f : Cursor → Parser β} (h : ∀ c, Runs (f c) l R E) : Runs (mark >>= f) l R E :=
  look_bind (a := fun s => s.cursor) (fun _ => rfl) fun _ _ => h _

end Runs

theorem Reads.or (hp : Reads p l m Q) : ReadsOr E p l m Q :=
  Runs.weaken hp (fun _ _ h => h) False.elim

theorem Fails.or (hp : Fails p l) : ReadsOr True p l m Q :=
  Runs.weaken hp (fun _ _ h => h.elim) id

namespace ReadsOr

theorem pure {a : α} (h : Q a) : ReadsOr E (Pure.pure a) l l Q := Runs.pure ⟨rfl, h⟩

/-- What comes behind a phrase starts where the phrase ends. -/
theorem bind {f : α → Parser β} (hp : ReadsOr E p l m Q) (hf : ∀ a, Q a → Runs (f a) m R E) :
    Runs (p >>= f) l R E := by
  refine Runs.bind hp ?_
  rintro a m' ⟨rfl, h⟩
  exact hf a h

theorem weaken {Q' : α → Prop} (hp : ReadsOr E p l m Q) (h : ∀ a, Q a → Q' a) :
    ReadsOr E p l m Q' :=
  Runs.weaken hp (fun a _ ha => ⟨ha.1, h a ha.2⟩) id

theorem map {g : α → β} {Q' : β → Prop} (hp : ReadsOr E p l m Q) (h : ∀ a, Q a → Q' (g a)) :
    ReadsOr E (g <$> p) l m Q' :=
  Runs.map hp fun a _ ha => ⟨ha.1, h a ha.2⟩

theorem attempt_bind {f : Except ParseError α → Parser β} (hp : Reads p l m Q)
    (hf : ∀ a, Q a → Runs (f (.ok a)) m R E) : Runs (attempt p >>= f) l R E := by
  refine ReadsOr.bind (Q := fun r => ∃ a, r = .ok a ∧ Q a) (m := m) ?_ ?_
  · intro s hs
    have hrun := hp s hs
    unfold attempt
    cases hp' : p s with
    | ok a s' =>
      rw [hp'] at hrun
      exact ⟨hrun.1, hrun.2.1, a, rfl, hrun.2.2⟩
    | error e s' =>
      rw [hp'] at hrun
      exact hrun.elim
  · rintro r ⟨a, rfl, ha⟩
    exact hf a ha

theorem attemptIf_bind {f : Option α → Parser β} (hp : Reads p l m Q)
    (hf : ∀ a, Q a → Runs (f (some a)) m R E) : Runs (attemptIf true p >>= f) l R E := by
  have heq : attemptIf true p >>= f = attempt p >>= fun r => f r.toOption := by
    simp only [attemptIf, if_true, bind_assoc, pure_bind]
  rw [heq]
  exact hp.attempt_bind fun a ha => hf a ha

end ReadsOr

namespace Fails

theorem bind {f : α → Parser β} (hp : Fails p l) : Fails (p >>= f) l :=
  Runs.bind hp fun _ _ h => h.elim

theorem failExpecting {expected : List String} : Fails (failExpecting (α := α) expected) l :=
  fun _ _ => trivial

theorem expect_bind {f : Position → Parser β} (ht : t' ≠ t) : Fails (expect t >>= f) (t' :: l) := by
  intro s hs
  rw [bind_of_error (expect_of_ne (ParserState.current_of_tokens hs ▸ ht))]
  trivial

theorem identifier_bind {f : String × Position → Parser β} (ht : ∀ name, t ≠ .identifier name) :
    Fails (identifier >>= f) (t :: l) := by
  intro s hs
  rw [bind_of_error (identifier_of_ne fun name => ParserState.current_of_tokens hs ▸ ht name)]
  trivial

theorem attempt_bind {f : Except ParseError α → Parser β} (hp : Fails p l)
    (hf : ∀ e, Runs (f (.error e)) l R E) : Runs (attempt p >>= f) l R E := by
  refine ReadsOr.bind (Q := fun r => ∃ e, r = .error e) (m := l) ?_ ?_
  · intro s hs
    have hrun := hp s hs
    unfold attempt
    cases hp' : p s with
    | ok a s' =>
      rw [hp'] at hrun
      exact hrun.2.elim
    | error e s' => exact ⟨by rw [← hs]; rfl, hs, e, rfl⟩
  · rintro r ⟨e, rfl⟩
    exact hf e

theorem attemptIf_bind {condition : Bool} {f : Option α → Parser β}
    (hp : condition = true → Fails p l) (hf : Runs (f none) l R E) :
    Runs (attemptIf condition p >>= f) l R E := by
  cases condition with
  | false => exact hf
  | true =>
    have heq : attemptIf true p >>= f = attempt p >>= fun r => f r.toOption := by
      simp only [attemptIf, if_true, bind_assoc, pure_bind]
    rw [heq]
    exact (hp rfl).attempt_bind fun _ => hf

end Fails

/-! ### The longer of two phrases -/

variable {q : Parser β} {Q' : β → Prop}

/-- The first phrase is taken when the second one leaves no fewer tokens or fails, the second one
when the first one leaves more tokens or fails. -/
theorem Runs.longer {F : Prop} {P : α → List Token → Prop} {S : α ⊕ β → List Token → Prop}
    (hp : Runs p l P E) (hq : Runs q l R E')
    (hfirst : ∀ a m, P a m → (∃ b m', R b m' ∧ m.length ≤ m'.length) ∨ E' → S (.inl a) m)
    (hsecond : ∀ b m, R b m → (∃ a m', P a m' ∧ m.length < m'.length) ∨ E → S (.inr b) m)
    (hneither : E → E' → F) : Runs (longer p q) l S F := by
  intro s hs
  have hrun := hp s hs
  rw [longer_run]
  cases hp' : p s with
  | error e s₁ =>
    rw [hp'] at hrun
    have hrun' := hq { s₁ with cursor := s.cursor } hs
    simp only
    cases hq' : q { s₁ with cursor := s.cursor } with
    | error e' s₂ =>
      rw [hq'] at hrun'
      exact hneither hrun hrun'
    | ok b s₂ =>
      rw [hq'] at hrun'
      exact ⟨hrun'.1, hsecond b _ hrun'.2 (.inr hrun)⟩
  | ok a s₁ =>
    rw [hp'] at hrun
    obtain ⟨hindex, ha⟩ := hrun
    have hrun' := hq { s₁ with cursor := s.cursor } hs
    simp only
    cases hq' : q { s₁ with cursor := s.cursor } with
    | error e' s₂ =>
      rw [hq'] at hrun'
      exact ⟨hindex, hfirst a _ ha (.inr hrun')⟩
    | ok b s₂ =>
      rw [hq'] at hrun'
      obtain ⟨hindex', hb⟩ := hrun'
      simp only at hindex' ⊢
      -- how far a phrase goes shows in the tokens that it leaves
      by_cases hlt : s₁.cursor.index < s₂.cursor.index
      · have hfewer : s₂.tokens.length < s₁.tokens.length := by omega
        rw [if_pos hlt]
        exact ⟨hindex', hsecond b _ hb (.inl ⟨a, _, ha, hfewer⟩)⟩
      · have hnoMore : s₁.tokens.length ≤ s₂.tokens.length := by omega
        rw [if_neg hlt]
        exact ⟨hindex, hfirst a _ ha (.inl ⟨b, _, hb, hnoMore⟩)⟩

theorem reads_longer_inl (hp : Reads p l m Q)
    (hq : Runs q l (fun _ m' => m.length ≤ m'.length) True) :
    ReadsOr E (longer p q) l m (Sum.elim Q fun _ => False) := by
  refine Runs.longer hp hq (fun a m' ha _ => ha) ?_ fun h _ => h.elim
  rintro b m' hb (⟨a, m'', ⟨rfl, -⟩, hlt⟩ | h)
  · exact absurd hb (Nat.not_le.2 hlt)
  · exact h.elim

theorem reads_longer_inr (hp : Runs p l (fun _ m' => m.length < m'.length) True)
    (hq : Reads q l m Q') : ReadsOr E (longer p q) l m (Sum.elim (fun _ => False) Q') := by
  refine Runs.longer hp hq ?_ (fun b m' hb _ => hb) fun _ h => h.elim
  rintro a m' ha (⟨b, m'', ⟨rfl, -⟩, hle⟩ | h)
  · exact absurd ha (Nat.not_lt.2 hle)
  · exact h.elim

/-- Both phrases may fail, but none of them can end elsewhere. -/
theorem runs_longer (hp : ReadsOr True p l m fun _ => True)
    (hq : ReadsOr True q l m fun _ => True) : ReadsOr True (longer p q) l m fun _ => True :=
  Runs.longer hp hq (fun _ _ ha _ => ha) (fun _ _ hb _ => hb) fun _ _ => trivial

theorem fails_longer (hp : Fails p l) (hq : Fails q l) : Fails (longer p q) l :=
  Runs.longer hp hq (fun _ _ h _ => h.elim) (fun _ _ h _ => h.elim) fun _ _ => trivial

end DrakeSyntax
