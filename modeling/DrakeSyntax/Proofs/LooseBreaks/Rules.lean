import DrakeSyntax.Proofs.LooseBreaks

/-!
# Parsers that overlook line breaks

From cursors that are abreast, a parser comes to the same result without the line breaks that may
be left out and with them, or it fails in both runs. Rules compose this along the way parsers are
composed.

* `Balks`: parsers that fail at a line break and at a keyword which a line break may stand in
  front of. They matter only where both cursors are at the same token (`Overlooks.of_at`).
* `OverlooksOr`: the first run may also stop in front of a keyword where the second one fails, which
  is what lists do: they take the line break for a separator.
* `Overlooks.skipNewlineBefore_bind`: a keyword is found in both runs or in neither.
-/

namespace DrakeSyntax

open DrakeSyntax.Parser

variable {xs : List LooseToken}

/-! ### Where no phrase begins -/

/-- The parser fails at a line break and at a keyword that a line break may stand in front of. -/
def Balks {α : Type} (p : Parser α) : Prop := ∀ t us, Token.atSeam t → Fails p (t :: us)

/-- The parser fails at a keyword that a line break may stand in front of. -/
def Refuses {α : Type} (p : Parser α) : Prop := ∀ t us, Token.continues t → Fails p (t :: us)

theorem error_of_fails {α : Type} {p : Parser α} {s : ParserState} {us : List Token}
    (h : Fails p us) (hs : s.tokens = us) : ∃ e s', p s = .error e s' := by
  have hfails := h s hs
  cases hp : p s with
  | ok a s' =>
    rw [hp] at hfails
    exact hfails.2.elim
  | error e s' => exact ⟨e, s', rfl⟩

theorem Refuses.error {α : Type} {p : Parser α} {s : ParserState} (h : Refuses p)
    (hs : s.cursor.current.token.continues) : ∃ e s', p s = .error e s' :=
  error_of_fails (h _ _ hs) (tokens_of_current rfl (Token.ne_endOfInput_of_continues hs))

namespace Balks

variable {α β : Type} {p : Parser α} {f : α → Parser β} {s : ParserState}

theorem refuses (h : Balks p) : Refuses p := fun t us ht => h t us (Token.atSeam_of_continues ht)

theorem error (h : Balks p) (hs : s.cursor.current.token.atSeam) : ∃ e s', p s = .error e s' := by
  have hend : s.cursor.current.token ≠ .endOfInput := by
    intro hend
    rw [hend] at hs
    cases hs
  exact error_of_fails (h _ _ hs) (tokens_of_current rfl hend)

theorem bind (h : Balks p) : Balks (p >>= f) := fun t us ht => (h t us ht).bind

theorem discard_bind {f : Unit → Parser β} (h : Balks p) : Balks (discard p >>= f) := by
  rw [Parser.discard_bind]
  exact h.bind

theorem map {f : α → β} (h : Balks p) : Balks (f <$> p) := by
  rw [← bind_pure_comp]
  exact h.bind

theorem ne_of_atSeam {t k : Token} (ht : t.atSeam) (hk : k.atSeam = false) : t ≠ k := by
  rintro rfl
  rw [ht] at hk
  cases hk

theorem failExpecting (expected : List String) : Balks (failExpecting (α := α) expected) :=
  fun _ _ _ => Fails.failExpecting

theorem peek_bind {f : PlacedToken → Parser β}
    (h : ∀ t : PlacedToken, t.token.atSeam → Balks (f t)) : Balks (peek >>= f) :=
  fun t us ht => Runs.peek_bind fun position => h ⟨t, position⟩ ht t us ht

theorem eat_bind {k : Token} {f : Bool → Parser β} (hk : k.atSeam = false) (h : Balks (f false)) :
    Balks (eat k >>= f) :=
  fun t us ht => Runs.eat_bind_ne (ne_of_atSeam ht hk) (h t us ht)

theorem isAt_bind {k : Token} {f : Bool → Parser β} (hk : k.atSeam = false) (h : Balks (f false)) :
    Balks (isAt k >>= f) := by
  intro t us ht
  refine Runs.isAt_bind ?_
  rw [beq_false_of_ne (ne_of_atSeam ht hk)]
  exact h t us ht

theorem expect {k : Token} (hk : k.atSeam = false) : Balks (expect k) := by
  intro t us ht
  have hfails := Fails.expect_bind (f := fun p => Pure.pure p) (l := us) (ne_of_atSeam ht hk)
  rwa [bind_pure] at hfails

theorem identifier : Balks identifier := by
  intro t us ht
  have hfails := Fails.identifier_bind (f := fun x => Pure.pure x) (l := us) (t := t)
    fun name => ne_of_atSeam ht rfl
  rwa [bind_pure] at hfails

theorem longer {q : Parser β} (hp : Balks p) (hq : Balks q) : Balks (longer p q) :=
  fun t us ht => fails_longer (hp t us ht) (hq t us ht)

end Balks

/-! ### The same result without the line breaks and with them -/

/-- The first run, without the line breaks, and the second one, with them, come to the same result
at cursors that are abreast, or both of them fail. Where `early` allows it, the first run may also
stop in front of a keyword where the second one fails. -/
inductive SameEnd (xs : List LooseToken) (early : Prop) {α : Type} :
    EStateM.Result ParseError ParserState α → EStateM.Result ParseError ParserState α → Prop
  | ok {a s s'} (abreast : s.cursor.Abreast xs s'.cursor) : SameEnd xs early (.ok a s) (.ok a s')
  | error {e e' s s'} : SameEnd xs early (.error e s) (.error e' s')
  | early {a s e s'} (allowed : early) (continues : s.cursor.current.token.continues) :
    SameEnd xs early (.ok a s) (.error e s')

/-- From cursors that are abreast the parser comes to the same result, or stops early. -/
def OverlooksOr (xs : List LooseToken) (early : Prop) {α : Type} (p : Parser α) : Prop :=
  ∀ s s' : ParserState, s.cursor.Abreast xs s'.cursor → SameEnd xs early (p s) (p s')

/-- The parser overlooks the line breaks that may be left out. -/
abbrev Overlooks (xs : List LooseToken) {α : Type} (p : Parser α) : Prop := OverlooksOr xs False p

/-- The parser overlooks the line breaks when both cursors are at the token `t`. -/
def OverlooksAt (xs : List LooseToken) (early : Prop) (t : PlacedToken) {α : Type} (p : Parser α) :
    Prop :=
  ∀ s s' : ParserState, s.cursor.Meets xs s'.cursor → s.cursor.current = t →
    SameEnd xs early (p s) (p s')

variable {α β : Type} {p : Parser α} {f : α → Parser β} {early : Prop} {t : PlacedToken}

/-- Both runs fail. -/
theorem SameEnd.of_errors {r r' : EStateM.Result ParseError ParserState α}
    (h : ∃ e s, r = .error e s) (h' : ∃ e s, r' = .error e s) : SameEnd xs early r r' := by
  obtain ⟨e, s, rfl⟩ := h
  obtain ⟨e', s', rfl⟩ := h'
  exact .error

/-- Where the first run fails, the second one does. -/
theorem SameEnd.exists_error {r r' : EStateM.Result ParseError ParserState α}
    (h : SameEnd xs early r r') (hr : ∃ e s, r = .error e s) : ∃ e s, r' = .error e s := by
  obtain ⟨e, s, rfl⟩ := hr
  cases h with
  | error => exact ⟨_, _, rfl⟩

/-- Where the first run comes to a result, the second one comes to the same. -/
theorem SameEnd.exists_ok {r r' : EStateM.Result ParseError ParserState α}
    (h : SameEnd xs False r r') {a : α} {s : ParserState} (hr : r = .ok a s) :
    ∃ s', r' = .ok a s' ∧ s.cursor.Abreast xs s'.cursor := by
  subst hr
  cases h with
  | ok abreast => exact ⟨_, rfl, abreast⟩
  | early allowed => exact allowed.elim

theorem OverlooksOr.at (h : OverlooksOr xs early p) : OverlooksAt xs early t p :=
  fun s s' hmeets _ => h s s' hmeets.abreast

theorem OverlooksAt.peek_bind {f : PlacedToken → Parser β} (h : OverlooksAt xs early t (f t)) :
    OverlooksAt xs early t (peek >>= f) := by
  intro s s' hmeets ht
  rw [bind_of_ok (rfl : peek s = .ok s.cursor.current s),
    bind_of_ok (rfl : peek s' = .ok s'.cursor.current s'), ← hmeets.current, ht]
  exact h s s' hmeets ht

theorem SameEnd.eat_bind {s s' : ParserState} {k : Token} {f f' : Bool → Parser β}
    (h : s.cursor.Abreast xs s'.cursor) (hk : k.atSeam = false)
    (htrue : ∀ r r' : ParserState, r.cursor.Abreast xs r'.cursor →
      SameEnd xs early (f true r) (f' true r'))
    (hfalse : SameEnd xs early (f false s) (f' false s')) :
    SameEnd xs early ((eat k >>= f) s) ((eat k >>= f') s') := by
  rcases h.cases with hmeets | hseam
  · by_cases hfound : s.cursor.current.token = k
    · rw [bind_of_ok (eat_of_eq hfound), bind_of_ok (eat_of_eq (hmeets.current ▸ hfound))]
      exact htrue _ _ hmeets.advance
    · rw [bind_of_ok (eat_of_ne hfound), bind_of_ok (eat_of_ne (hmeets.current ▸ hfound))]
      exact hfalse
  · rw [bind_of_ok (eat_of_ne (Balks.ne_of_atSeam hseam.atSeam hk)),
      bind_of_ok (eat_of_ne (Balks.ne_of_atSeam hseam.atSeam' hk))]
    exact hfalse

namespace Overlooks

theorem pure {a : α} : OverlooksOr xs early (Pure.pure a) := fun _ _ h => .ok h

theorem bind (hp : Overlooks xs p) (hf : ∀ a, OverlooksOr xs early (f a)) :
    OverlooksOr xs early (p >>= f) := by
  intro s s' h
  have hrun := hp s s' h
  simp only [Bind.bind, EStateM.bind]
  generalize p s = r, p s' = r' at hrun ⊢
  cases hrun with
  | ok abreast => exact hf _ _ _ abreast
  | error => exact .error
  | early allowed => exact allowed.elim

theorem map {f : α → β} (hp : OverlooksOr xs early p) : OverlooksOr xs early (f <$> p) := by
  intro s s' h
  have hrun := hp s s' h
  simp only [Functor.map, EStateM.map]
  generalize p s = r, p s' = r' at hrun ⊢
  cases hrun with
  | ok abreast => exact .ok abreast
  | error => exact .error
  | early allowed continues => exact .early allowed continues

theorem discard_bind {f : Unit → Parser β} (hp : Overlooks xs p)
    (hf : OverlooksOr xs early (f ())) : OverlooksOr xs early (discard p >>= f) := by
  rw [Parser.discard_bind]
  exact hp.bind fun _ => hf

theorem ite {q : Parser α} {c : Prop} [Decidable c] (hp : OverlooksOr xs early p)
    (hq : OverlooksOr xs early q) : OverlooksOr xs early (if c then p else q) := by
  split
  · exact hp
  · exact hq

/-- Where the first run stops early, what comes behind has to fail there. -/
theorem close (hp : OverlooksOr xs True p) (hrefuses : ∀ a, Refuses (f a))
    (hf : ∀ a, Overlooks xs (f a)) : Overlooks xs (p >>= f) := by
  intro s s' h
  have hrun := hp s s' h
  simp only [Bind.bind, EStateM.bind]
  generalize p s = r, p s' = r' at hrun ⊢
  cases hrun with
  | ok abreast => exact hf _ _ _ abreast
  | error => exact .error
  | @early a s₁ e s₂ _ continues =>
    obtain ⟨e', s', he⟩ := (hrefuses a).error continues
    simp only [he]
    exact .error

theorem failExpecting (expected : List String) :
    OverlooksOr xs early (failExpecting (α := α) expected) := fun _ _ _ => .error

theorem reject (note : String) : OverlooksOr xs early (reject (α := α) note) := fun _ _ _ => .error

theorem rejectAt (t : PlacedToken) (note : String) :
    OverlooksOr xs early (rejectAt (α := α) t note) := fun _ _ _ => .error

/-! ### The token at the cursor -/

/-- A parser that fails at a line break and at a keyword matters at the same token only. -/
theorem of_at (hbalks : Balks p) (h : ∀ t, OverlooksAt xs early t p) : OverlooksOr xs early p := by
  intro s s' habreast
  rcases habreast.cases with hmeets | hseam
  · exact h _ s s' hmeets rfl
  · exact SameEnd.of_errors (hbalks.error hseam.atSeam) (hbalks.error hseam.atSeam')

/-- What comes behind a look at the token may use that both cursors are at it. -/
theorem peek_bind {f : PlacedToken → Parser β} (hbalks : Balks (peek >>= f))
    (h : ∀ t, OverlooksAt xs early t (f t)) : OverlooksOr xs early (peek >>= f) :=
  of_at hbalks fun t => (h t).peek_bind

end Overlooks

namespace OverlooksAt

theorem ite {q : Parser α} {c : Prop} [Decidable c] (hp : OverlooksAt xs early t p)
    (hq : OverlooksAt xs early t q) : OverlooksAt xs early t (if c then p else q) := by
  split
  · exact hp
  · exact hq

/-- Any token is found in both runs or in neither. -/
theorem isAt_ite {k : Token} {q : Parser α} (hp : t.token = k → OverlooksAt xs early t p)
    (hq : OverlooksAt xs early t q) :
    OverlooksAt xs early t (isAt k >>= fun found => if found then p else q) := by
  rintro s s' hmeets rfl
  rw [bind_of_ok (isAt_run k s), bind_of_ok (isAt_run k s'), ← hmeets.current]
  by_cases hfound : s.cursor.current.token = k
  · rw [beq_iff_eq.2 hfound]
    exact hp hfound s s' hmeets rfl
  · rw [beq_false_of_ne hfound]
    exact hq s s' hmeets rfl

/-- Behind a line break that both cursors are at is the same token. -/
theorem peekFollowing_bind {f : Token → Parser β} (ht : t.token = .newline)
    (hf : ∀ u, OverlooksAt xs early t (f u)) : OverlooksAt xs early t (peekFollowing >>= f) := by
  rintro s s' hmeets rfl
  rw [bind_of_ok (rfl : peekFollowing s = .ok s.cursor.following s),
    bind_of_ok (rfl : peekFollowing s' = .ok s'.cursor.following s'), hmeets.following_eq ht]
  exact hf _ s s' hmeets rfl

theorem advance_bind {f : PlacedToken → Parser β} (hf : OverlooksOr xs early (f t)) :
    OverlooksAt xs early t (advance >>= f) := by
  rintro s s' hmeets rfl
  rw [bind_of_ok (rfl : advance s = .ok s.cursor.current { s with cursor := s.cursor.advance }),
    bind_of_ok (rfl : advance s' = .ok s'.cursor.current { s' with cursor := s'.cursor.advance }),
    ← hmeets.current]
  exact hf _ _ hmeets.advance

theorem discard_advance_bind {f : Unit → Parser β} (hf : OverlooksOr xs early (f ())) :
    OverlooksAt xs early t (discard advance >>= f) := by
  rw [Parser.discard_bind]
  exact advance_bind hf

end OverlooksAt

namespace Overlooks

/-- A token that is neither a line break nor a keyword that goes on is found in both runs or in
neither. -/
theorem isAt_ite {k : Token} {q : Parser α} (hk : k.atSeam = false)
    (htrue : ∀ t : PlacedToken, t.token = k → OverlooksAt xs early t p)
    (hfalse : OverlooksOr xs early q) :
    OverlooksOr xs early (isAt k >>= fun found => if found then p else q) := by
  intro s s' habreast
  rcases habreast.cases with hmeets | hseam
  · exact OverlooksAt.isAt_ite (htrue _) hfalse.at s s' hmeets rfl
  · rw [bind_of_ok (isAt_run k s), bind_of_ok (isAt_run k s'),
      beq_false_of_ne (Balks.ne_of_atSeam hseam.atSeam hk),
      beq_false_of_ne (Balks.ne_of_atSeam hseam.atSeam' hk)]
    exact hfalse s s' habreast

theorem eat_bind {k : Token} {f : Bool → Parser β} (hk : k.atSeam = false)
    (htrue : OverlooksOr xs early (f true)) (hfalse : OverlooksOr xs early (f false)) :
    OverlooksOr xs early (eat k >>= f) :=
  fun s s' h => SameEnd.eat_bind h hk htrue (hfalse s s' h)

theorem eat {k : Token} (hk : k.atSeam = false) : Overlooks xs (eat k) := by
  rw [← bind_pure (Parser.eat k)]
  exact eat_bind hk pure pure

theorem expect {k : Token} (hk : k.atSeam = false) : Overlooks xs (expect k) := by
  unfold Parser.expect
  refine isAt_ite hk (fun t _ => ?_) (failExpecting _)
  exact OverlooksAt.advance_bind pure

theorem identifier : Overlooks xs identifier := by
  refine of_at Balks.identifier fun t s s' hmeets ht => ?_
  by_cases hname : ∃ name, s.cursor.current.token = .identifier name
  · obtain ⟨name, hname⟩ := hname
    rw [identifier_of_eq hname, identifier_of_eq (hmeets.current ▸ hname), ← hmeets.current]
    exact .ok hmeets.advance
  · have hnone (name : String) : s.cursor.current.token ≠ .identifier name :=
      fun h => hname ⟨name, h⟩
    rw [identifier_of_ne hnone, identifier_of_ne fun name => hmeets.current ▸ hnone name]
    exact .error

/-- Behind a line break both runs are at the same token. They fail behind one that may be left
out. -/
theorem eat_newline_bind {f : Unit → Parser β} (hrefuses : Refuses (f ()))
    (hf : ∀ t, OverlooksAt xs early t (f ())) :
    OverlooksOr xs early (discard (Parser.eat .newline) >>= f) := by
  rw [Parser.discard_bind]
  intro s s' habreast
  rcases habreast.cases with hmeets | hseam
  · by_cases hnewline : s.cursor.current.token = .newline
    · rw [bind_of_ok (eat_of_eq hnewline), bind_of_ok (eat_of_eq (hmeets.current ▸ hnewline))]
      exact hf _ _ _ (hmeets.meets_advance hnewline) rfl
    · rw [bind_of_ok (eat_of_ne hnewline), bind_of_ok (eat_of_ne (hmeets.current ▸ hnewline))]
      exact hf _ _ _ hmeets rfl
  · rw [bind_of_ok (eat_of_ne hseam.current_ne), bind_of_ok (eat_of_eq hseam.newline)]
    refine SameEnd.of_errors (hrefuses.error hseam.continues) (hrefuses.error ?_)
    exact hseam.behind ▸ hseam.continues

/-! ### Keywords that go on with a form -/

variable {w : Keyword}

theorem skipNewlineBefore_bind_run (f : Bool → Parser β) (s : ParserState) :
    (skipNewlineBefore w >>= f) s = (isAt (.keyword w) >>= f)
      (if s.cursor.current.token = .newline ∧ s.cursor.following = .keyword w then
        { s with cursor := s.cursor.advance } else s) := by
  simp only [Bind.bind, EStateM.bind, skipNewlineBefore_run]

theorem isAt_ite_of_eq {k : Token} {f : PlacedToken → Parser β} {q : Parser β} {s : ParserState}
    (h : s.cursor.current.token = k) :
    (isAt k >>= fun found => if found then advance >>= f else q) s =
      f s.cursor.current { s with cursor := s.cursor.advance } := by
  rw [bind_of_ok (isAt_run k s), beq_iff_eq.2 h]
  rfl

theorem isAt_ite_of_ne {k : Token} {p q : Parser β} {s : ParserState}
    (h : s.cursor.current.token ≠ k) :
    (isAt k >>= fun found => if found then p else q) s = q s := by
  rw [bind_of_ok (isAt_run k s), beq_false_of_ne h]
  rfl

/-- **A keyword is found in both runs or in neither**, also where the line break in front of it is
left out, or the one in front of another keyword. -/
theorem skipNewlineBefore_bind {f : PlacedToken → Parser β} {q : Parser β}
    (hf : ∀ t, OverlooksOr xs early (f t)) (hq : OverlooksOr xs early q) :
    OverlooksOr xs early
      (skipNewlineBefore w >>= fun found => if found then advance >>= f else q) := by
  intro s s' habreast
  rw [skipNewlineBefore_bind_run, skipNewlineBefore_bind_run]
  rcases habreast.cases with hmeets | hseam
  · have hat (t : PlacedToken) : OverlooksAt xs early t
        (isAt (.keyword w) >>= fun found => if found then advance >>= f else q) :=
      OverlooksAt.isAt_ite (fun _ => OverlooksAt.advance_bind (hf t)) hq.at
    -- both runs skip the line break or neither does
    by_cases hskip : s.cursor.current.token = .newline ∧ s.cursor.following = .keyword w
    · have hfollowing := hmeets.following_eq hskip.1
      rw [if_pos hskip, if_pos ⟨hmeets.current ▸ hskip.1, hfollowing ▸ hskip.2⟩]
      exact hat _ _ _ (hmeets.meets_advance hskip.1) rfl
    · rw [if_neg hskip, if_neg fun h => ?_]
      · exact hat _ s s' hmeets rfl
      · have hnewline : s.cursor.current.token = .newline := hmeets.current ▸ h.1
        exact hskip ⟨hnewline, hmeets.following_eq hnewline ▸ h.2⟩
  · -- the second run skips the line break in front of this keyword only
    rw [if_neg fun h => hseam.current_ne h.1, hseam.following]
    by_cases hfound : s.cursor.current.token = .keyword w
    · rw [if_pos ⟨hseam.newline, hfound⟩, isAt_ite_of_eq hfound,
        isAt_ite_of_eq (s := { s' with cursor := s'.cursor.advance }) (hseam.behind ▸ hfound)]
      dsimp only
      rw [hseam.behind]
      exact hf _ _ _ hseam.advance
    · rw [if_neg fun h => hfound h.2, isAt_ite_of_ne hfound,
        isAt_ite_of_ne (by simp [hseam.newline])]
      exact hq s s' habreast

/-- Behind a line break that may be left out, the keyword is expected. -/
theorem skipNewlineBefore_expect {q : Parser β} (hq : OverlooksOr xs early q) :
    OverlooksOr xs early (do
      discard (skipNewlineBefore w)
      discard (Parser.expect (.keyword w))
      q) := by
  have heq : (do
      discard (skipNewlineBefore w)
      discard (Parser.expect (.keyword w))
      q) = (skipNewlineBefore w >>= fun found => if found then advance >>= fun _ => q
        else Parser.failExpecting [(Token.keyword w).describe]) := by
    funext s
    rw [Parser.discard_bind, skipNewlineBefore_bind_run, skipNewlineBefore_bind_run]
    generalize (if s.cursor.current.token = .newline ∧ s.cursor.following = .keyword w then
      { s with cursor := s.cursor.advance } else s) = r
    rw [Parser.discard_bind, bind_of_ok (isAt_run _ r), bind_of_ok (isAt_run _ r)]
    by_cases hfound : r.cursor.current.token = .keyword w
    · rw [beq_iff_eq.2 hfound, bind_of_ok (expect_of_eq hfound)]
      rfl
    · rw [beq_false_of_ne hfound, bind_of_error (expect_of_ne hfound)]
      rfl
  rw [heq]
  exact skipNewlineBefore_bind (fun _ => hq) (failExpecting _)

/-! ### Trials -/

theorem attempt_bind {f : Except ParseError α → Parser β} (hp : Overlooks xs p)
    (hok : ∀ a, OverlooksOr xs early (f (.ok a)))
    (herror : ∀ e e' s s', s.cursor.Abreast xs s'.cursor →
      SameEnd xs early (f (.error e) s) (f (.error e') s')) :
    OverlooksOr xs early (attempt p >>= f) := by
  intro s s' habreast
  have hrun := hp s s' habreast
  simp only [Bind.bind, EStateM.bind, attempt]
  generalize p s = r, p s' = r' at hrun ⊢
  cases hrun with
  | ok abreast => exact hok _ _ _ abreast
  | error => exact herror _ _ _ _ habreast
  | early allowed => exact allowed.elim

theorem attemptIf {condition : Bool} (hp : Overlooks xs p) :
    Overlooks xs (attemptIf condition p) := by
  unfold Parser.attemptIf
  refine ite (attempt_bind hp (fun a => pure) fun e e' s s' habreast => ?_) pure
  exact .ok habreast

/-- The same one of two phrases is the longer one. -/
theorem longer {q : Parser β} (hp : Overlooks xs p) (hq : Overlooks xs q) :
    Overlooks xs (longer p q) := by
  intro s s' habreast
  have hrun := hp s s' habreast
  rw [longer_run, longer_run]
  generalize p s = r, p s' = r' at hrun ⊢
  cases hrun with
  | early allowed => exact allowed.elim
  | @ok a s₁ s₁' abreast =>
    have hrun' := hq { s₁ with cursor := s.cursor } { s₁' with cursor := s'.cursor } habreast
    simp only
    generalize q { s₁ with cursor := s.cursor } = r₂, q { s₁' with cursor := s'.cursor } = r₂'
      at hrun' ⊢
    cases hrun' with
    | early allowed => exact allowed.elim
    | @ok b s₂ s₂' abreast' =>
      simp only
      by_cases hlt : s₁.cursor.index < s₂.cursor.index
      · rw [if_pos hlt, if_pos ((abreast.index_lt_iff abreast').1 hlt)]
        exact .ok abreast'
      · rw [if_neg hlt, if_neg fun h => hlt ((abreast.index_lt_iff abreast').2 h)]
        exact .ok abreast
    | error => exact .ok abreast
  | @error e e' s₁ s₁' =>
    have hrun' := hq { s₁ with cursor := s.cursor } { s₁' with cursor := s'.cursor } habreast
    simp only
    generalize q { s₁ with cursor := s.cursor } = r₂, q { s₁' with cursor := s'.cursor } = r₂'
      at hrun' ⊢
    cases hrun' with
    | early allowed => exact allowed.elim
    | ok abreast' => exact .ok abreast'
    | error => exact .error

end Overlooks

end DrakeSyntax
