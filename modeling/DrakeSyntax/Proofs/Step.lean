import DrakeSyntax.Grammar.Longest

/-!
# Single steps of a parser

What the smallest parsers do from a given state: each either takes the token at the cursor and
moves on or fails and leaves the state as it was. `longer_run` says the same of the longer of two
phrases, in terms of what the two come to.
-/

namespace DrakeSyntax.Parser

variable {α β : Type} {s s' : ParserState} {t : Token}

theorem bind_of_ok {p : Parser α} {f : α → Parser β} {a : α} (h : p s = .ok a s') :
    (p >>= f) s = f a s' := by
  simp only [Bind.bind, EStateM.bind, h]

theorem bind_of_error {p : Parser α} {f : α → Parser β} {e : ParseError} (h : p s = .error e s') :
    (p >>= f) s = .error e s' := by
  simp only [Bind.bind, EStateM.bind, h]

/-- A success of a composition is one of both parts. -/
theorem bind_eq_ok {p : Parser α} {f : α → Parser β} {b : β} (h : (p >>= f) s = .ok b s') :
    ∃ a s₁, p s = .ok a s₁ ∧ f a s₁ = .ok b s' := by
  simp only [Bind.bind, EStateM.bind] at h
  split at h
  · exact ⟨_, _, ‹_›, h⟩
  · cases h

/-- A result that is thrown away does not matter for what comes behind. -/
theorem discard_bind (p : Parser α) (f : Unit → Parser β) :
    discard p >>= f = p >>= fun _ => f () := by
  funext s
  simp only [Bind.bind, EStateM.bind, Functor.discard, Functor.mapConst, EStateM.map,
    Function.comp]
  cases p s <;> rfl

theorem isAt_run (t : Token) (s : ParserState) :
    isAt t s = .ok (s.cursor.current.token == t) s := rfl

theorem eat_of_eq (h : s.cursor.current.token = t) :
    eat t s = .ok true { s with cursor := s.cursor.advance } := by
  unfold eat
  rw [bind_of_ok (isAt_run t s), beq_iff_eq.2 h]
  rfl

theorem eat_of_ne (h : s.cursor.current.token ≠ t) : eat t s = .ok false s := by
  unfold eat
  rw [bind_of_ok (isAt_run t s), beq_false_of_ne h]
  rfl

/-- A token that is not found is not taken. -/
theorem eat_eq_false (h : eat t s = .ok false s') : s' = s := by
  by_cases hat : s.cursor.current.token = t
  · rw [eat_of_eq hat] at h
    cases h
  · rw [eat_of_ne hat] at h
    cases h
    rfl

theorem expect_of_eq (h : s.cursor.current.token = t) :
    expect t s = .ok s.cursor.current.position { s with cursor := s.cursor.advance } := by
  unfold expect
  rw [bind_of_ok (isAt_run t s), beq_iff_eq.2 h]
  rfl

theorem expect_of_ne (h : s.cursor.current.token ≠ t) :
    expect t s = .error (.unexpected [t.describe] s.cursor.current) s := by
  unfold expect
  rw [bind_of_ok (isAt_run t s), beq_false_of_ne h]
  rfl

theorem identifier_of_eq {name : String} (h : s.cursor.current.token = .identifier name) :
    identifier s = .ok (name, s.cursor.current.position) { s with cursor := s.cursor.advance } := by
  unfold identifier
  simp only [Bind.bind, EStateM.bind, peek, h]
  rfl

theorem identifier_of_ne (h : ∀ name, s.cursor.current.token ≠ .identifier name) :
    identifier s = .error (.unexpected ["identifier"] s.cursor.current) s := by
  unfold identifier
  simp only [Bind.bind, EStateM.bind, peek]
  rfl

theorem attempt_of_ok {p : Parser α} {a : α} (h : p s = .ok a s') :
    attempt p s = .ok (.ok a) s' := by
  rw [attempt, h]

theorem attempt_of_error {p : Parser α} {e : ParseError} (h : p s = .error e s') :
    attempt p s = .ok (.error e) { s' with cursor := s.cursor } := by
  rw [attempt, h]

/-- A line break is taken only in front of the keyword. -/
theorem skipNewlineBefore_run (k : Keyword) (s : ParserState) :
    skipNewlineBefore k s = isAt (.keyword k)
      (if s.cursor.current.token = .newline ∧ s.cursor.following = .keyword k then
        { s with cursor := s.cursor.advance } else s) := by
  unfold skipNewlineBefore
  simp only [Bind.bind, EStateM.bind, isAt_run, peekFollowing]
  by_cases h : s.cursor.current.token = .newline ∧ s.cursor.following = .keyword k
  · rw [if_pos h, beq_iff_eq.2 h.1, beq_iff_eq.2 h.2]
    rfl
  · rw [if_neg h]
    have hfalse : (s.cursor.current.token == .newline && s.cursor.following == .keyword k) = false := by
      simpa using h
    rw [hfalse]
    rfl

/-- Both parsers run from the same cursor, the second one with what the first one remembers. -/
theorem longer_run (p : Parser α) (q : Parser β) (s : ParserState) :
    longer p q s =
      match p s with
      | .ok a s₁ =>
        match q { s₁ with cursor := s.cursor } with
        | .ok b s₂ =>
          if s₁.cursor.index < s₂.cursor.index then .ok (.inr b) s₂
          else .ok (.inl a) { s₂ with cursor := s₁.cursor }
        | .error _ s₂ => .ok (.inl a) { s₂ with cursor := s₁.cursor }
      | .error e s₁ =>
        match q { s₁ with cursor := s.cursor } with
        | .ok b s₂ => .ok (.inr b) s₂
        | .error e' s₂ =>
          .error (if e.position.offset < e'.position.offset then e' else e)
            { s₂ with cursor := s.cursor } := by
  simp only [longer, Bind.bind, EStateM.bind, mark, attempt, reset]
  cases p s with
  | ok a s₁ =>
    simp only
    cases q { s₁ with cursor := s.cursor } with
    -- both succeed: the index decides
    | ok b s₂ =>
      simp only
      split
      · rfl
      · rfl
    | error e' s₂ => rfl
  | error e s₁ =>
    simp only
    cases q { s₁ with cursor := s.cursor } with
    | ok b s₂ => rfl
    | error e' s₂ => rfl

/-- The longer one of two outcomes that begin at the cursor. -/
def longerOf (c : Cursor) :
    EStateM.Result ParseError ParserState α → EStateM.Result ParseError ParserState β →
      EStateM.Result ParseError ParserState (α ⊕ β)
  | .ok a s, .ok b s' =>
    if s.cursor.index < s'.cursor.index then .ok (.inr b) s'
    else .ok (.inl a) { s' with cursor := s.cursor }
  | .ok a s, .error _ s' => .ok (.inl a) { s' with cursor := s.cursor }
  | .error _ _, .ok b s' => .ok (.inr b) s'
  | .error e _, .error e' s' =>
    .error (if e.position.offset < e'.position.offset then e' else e) { s' with cursor := c }

/-- The longer of two phrases is the longer one of their outcomes. The second phrase begins with
what the first one leaves remembered. -/
theorem exists_longer_eq (p : Parser α) (q : Parser β) (s : ParserState) :
    ∃ b, longer p q s = longerOf s.cursor (p s) (q { s with brackets := b }) ∧
      match p s with
      | .ok _ s₁ | .error _ s₁ => b = s₁.brackets := by
  rw [longer_run]
  cases p s with
  | ok a s₁ =>
    refine ⟨s₁.brackets, ?_, rfl⟩
    simp only
    cases q { s₁ with cursor := s.cursor } <;> rfl
  | error e s₁ =>
    refine ⟨s₁.brackets, ?_, rfl⟩
    simp only
    cases q { s₁ with cursor := s.cursor } <;> rfl

end DrakeSyntax.Parser
