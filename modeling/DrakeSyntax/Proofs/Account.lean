import DrakeSyntax.Proofs.Writing
import DrakeSyntax.Proofs.Yields

/-!
# What becomes of the tokens of a phrase

Line breaks, commas and brackets of all kinds arrange a text. The other tokens are significant: they
are what its trees are written with (`Token.isSignificant`). A parser accounts for the tokens it
takes if the significant ones among them are those of its result as it is written, in the same order
(`Accounts`). Rules compose such statements along the way parsers are composed. A trial that is
given up takes nothing, whatever was read in it.

* `Accounts.bind`: what comes behind a phrase takes up the account where the phrase leaves it.
* `accounts_longer`: the longer of two phrases accounts for its tokens if both of them do.
* `accounts_listWith`: a list accounts for its tokens by its items.
* `accounts_twoKindList`: so does a list of two kinds, since no item of the first kind comes behind
  one of the second.
-/

namespace DrakeSyntax

open DrakeSyntax.Parser

/-- Whether the token is more than a line break, a comma or a bracket. -/
def Token.isSignificant : Token → Bool
  | .newline | .punctuator .comma
  | .punctuator .leftParen | .punctuator .rightParen
  | .punctuator .leftBracket | .punctuator .rightBracket
  | .punctuator .leftBrace | .punctuator .rightBrace => false
  | _ => true

@[simp]
theorem isSignificant_newline : Token.newline.isSignificant = false := rfl

@[simp]
theorem isSignificant_identifier (name : String) : (Token.identifier name).isSignificant = true :=
  rfl

@[simp]
theorem isSignificant_keyword (k : Keyword) : (Token.keyword k).isSignificant = true := rfl

@[simp]
theorem isSignificant_punctuator (p : Punctuator) :
    (Token.punctuator p).isSignificant = (p ∉ [.comma, .leftParen, .rightParen, .leftBracket,
      .rightBracket, .leftBrace, .rightBrace] : Bool) := by
  cases p <;> rfl

/-- The significant ones of the tokens. -/
def significant (ts : List Token) : List Token := ts.filter Token.isSignificant

/-- The tokens in front of the end of the input. -/
def beforeEnd (ts : List Token) : List Token := ts.takeWhile (· != .endOfInput)

/-- The significant tokens that are still to be read. -/
def ParserState.pending (s : ParserState) : List Token := significant (beforeEnd s.tokens)

@[simp]
theorem significant_nil : significant [] = [] := rfl

@[simp]
theorem significant_append (w k : List Token) :
    significant (w ++ k) = significant w ++ significant k := List.filter_append ..

@[simp]
theorem significant_cons (t : Token) (w : List Token) :
    significant (t :: w) = if t.isSignificant then t :: significant w else significant w :=
  List.filter_cons

@[simp]
theorem significant_flatMap {α : Type} (l : List α) (f : α → List Token) :
    significant (l.flatMap f) = l.flatMap fun a => significant (f a) := List.filter_flatMap

@[simp]
theorem significant_inParens (w : List Token) : significant (inParens w) = significant w := by
  simp [inParens]

@[simp]
theorem significant_inBraces (w : List Token) : significant (inBraces w) = significant w := by
  simp [inBraces]

@[simp]
theorem significant_inBrackets (w : List Token) : significant (inBrackets w) = significant w := by
  simp [inBrackets]

@[simp]
theorem significant_commaList (ws : List (List Token)) :
    significant (commaList ws) = ws.flatMap significant := by
  cases ws with
  | nil => rfl
  | cons w ws =>
    rw [commaList_cons]
    induction ws with
    | nil => simp [listTail]
    | cons w' ws ih =>
      rw [listTail_cons]
      simpa using ih

variable {α β : Type} {p : Parser α} {f : α → Parser β} {w : List Token} {t : Token}
variable {u : α → List Token} {v : β → List Token}

/-- Behind the tokens `w`, the parser takes such tokens that the significant ones of both are those
of what its result is written as. -/
def Accounts (w : List Token) (p : Parser α) (u : α → List Token) : Prop :=
  ∀ s a s', p s = .ok a s' → significant w ++ s.pending = significant (u a) ++ s'.pending

/-- The parser accounts for what it takes from the token `t` on. -/
def AccountsAt (t : Token) (w : List Token) (p : Parser α) (u : α → List Token) : Prop :=
  ∀ s a s', s.cursor.current.token = t → p s = .ok a s' →
    significant w ++ s.pending = significant (u a) ++ s'.pending

theorem Accounts.at (h : Accounts w p u) : AccountsAt t w p u := by
  intro s a s' _ hrun
  exact h s a s' hrun

/-- A token that is taken is no longer pending. -/
theorem ParserState.pending_eq {s : ParserState} (h : s.cursor.current.token = t)
    (ht : t ≠ .endOfInput) :
    s.pending = significant [t] ++ ParserState.pending { s with cursor := s.cursor.advance } := by
  obtain ⟨⟨index, rest⟩, brackets⟩ := s
  cases rest with
  | nil => exact absurd h.symm ht
  | cons x xs =>
    subst h
    have hne : x.token ≠ .endOfInput := ht
    simp only [Cursor.current, Cursor.advance, if_neg hne, pending, tokens, beforeEnd, List.map_cons]
    rw [List.takeWhile_cons_of_pos (by simpa using hne)]
    exact significant_append [x.token] _

namespace Accounts

theorem pure {a : α} (h : significant w = significant (u a)) : Accounts w (Pure.pure a) u := by
  intro s b s' hrun
  cases hrun
  rw [h]

theorem bind (hp : Accounts w p u) (hf : ∀ a, Accounts (u a) (f a) v) :
    Accounts w (p >>= f) v := by
  intro s b s' hrun
  obtain ⟨a, s₁, ha, hb⟩ := bind_eq_ok hrun
  rw [hp s a s₁ ha, hf a s₁ b s' hb]

/-- A phrase accounts for its tokens whatever was taken before it. -/
theorem behind (hp : Accounts [] p u) (w : List Token) : Accounts w p fun a => w ++ u a := by
  intro s a s' hrun
  have h := hp s a s' hrun
  rw [significant_nil, List.nil_append] at h
  rw [h, significant_append, List.append_assoc]

/-- What comes behind a phrase takes up the account where the phrase leaves it. -/
theorem phrase (hp : Accounts [] p u) (hf : ∀ a, Accounts (w ++ u a) (f a) v) :
    Accounts w (p >>= f) v := (hp.behind w).bind hf

theorem weaken {u' : α → List Token} (hp : Accounts w p u)
    (h : ∀ a, significant (u a) = significant (u' a)) : Accounts w p u' := by
  intro s a s' hrun
  rw [hp s a s' hrun, h]

/-- What is known of the results may be used to write them differently. -/
theorem yielding {u' : α → List Token} {Q : α → Prop} (hp : Accounts w p u) (hQ : Yields p Q)
    (h : ∀ a, Q a → significant (u a) = significant (u' a)) : Accounts w p u' := by
  intro s a s' hrun
  rw [hp s a s' hrun, h a (hQ s a s' hrun)]

theorem map {h : α → β} (hp : Accounts w p fun a => v (h a)) : Accounts w (h <$> p) v := by
  rw [← bind_pure_comp]
  exact hp.bind fun _ => .pure rfl

theorem ite {p q : Parser α} {c : Prop} [Decidable c] (hp : Accounts w p u)
    (hq : Accounts w q u) : Accounts w (if c then p else q) u := by
  split
  · exact hp
  · exact hq

/-- What is taken before may be written differently. -/
theorem congr {w' : List Token} (hp : Accounts w' p u) (h : significant w = significant w') :
    Accounts w p u := by
  intro s a s' hrun
  rw [h, hp s a s' hrun]

theorem fail {p : Parser α} (h : ∀ s a s', p s ≠ .ok a s') : Accounts w p u := by
  intro s a s' hrun
  exact absurd hrun (h s a s')

/-! ### Single tokens -/

theorem peek_bind {f : PlacedToken → Parser β} (hf : ∀ t, AccountsAt t.token w (f t) v) :
    Accounts w (peek >>= f) v := by
  intro s b s' hrun
  exact hf s.cursor.current s b s' rfl hrun

theorem isAt_bind {f : Bool → Parser β} (htrue : AccountsAt t w (f true) v)
    (hfalse : Accounts w (f false) v) : Accounts w (isAt t >>= f) v := by
  intro s b s' hrun
  rw [bind_of_ok (isAt_run t s)] at hrun
  by_cases ht : s.cursor.current.token = t
  · rw [beq_iff_eq.2 ht] at hrun
    exact htrue s b s' ht hrun
  · rw [beq_false_of_ne ht] at hrun
    exact hfalse s b s' hrun

theorem eat_bind {f : Bool → Parser β} (ht : t ≠ .endOfInput)
    (htrue : Accounts (w ++ [t]) (f true) v) (hfalse : Accounts w (f false) v) :
    Accounts w (eat t >>= f) v := by
  intro s b s' hrun
  by_cases hat : s.cursor.current.token = t
  · rw [bind_of_ok (eat_of_eq hat)] at hrun
    rw [ParserState.pending_eq hat ht, ← List.append_assoc, ← significant_append]
    exact htrue _ b s' hrun
  · rw [bind_of_ok (eat_of_ne hat)] at hrun
    exact hfalse s b s' hrun

theorem expect_bind {f : Position → Parser β} (ht : t ≠ .endOfInput)
    (hf : ∀ q, Accounts (w ++ [t]) (f q) v) : Accounts w (expect t >>= f) v := by
  intro s b s' hrun
  by_cases hat : s.cursor.current.token = t
  · rw [bind_of_ok (expect_of_eq hat)] at hrun
    rw [ParserState.pending_eq hat ht, ← List.append_assoc, ← significant_append]
    exact hf _ _ b s' hrun
  · rw [bind_of_error (expect_of_ne hat)] at hrun
    cases hrun

theorem identifier_bind {f : String × Position → Parser β}
    (hf : ∀ name q, Accounts (w ++ [.identifier name]) (f (name, q)) v) :
    Accounts w (identifier >>= f) v := by
  intro s b s' hrun
  by_cases hat : ∃ name, s.cursor.current.token = .identifier name
  · obtain ⟨name, hat⟩ := hat
    rw [bind_of_ok (identifier_of_eq hat)] at hrun
    rw [ParserState.pending_eq hat (by simp), ← List.append_assoc, ← significant_append]
    exact hf name _ _ b s' hrun
  · rw [bind_of_error (identifier_of_ne (not_exists.1 hat))] at hrun
    cases hrun

/-- The result of a phrase does not matter here. -/
theorem discard_bind {f : Unit → Parser β} (h : Accounts w (p >>= fun _ => f ()) v) :
    Accounts w (discard p >>= f) v := by
  rwa [Parser.discard_bind]

/-- A line break that is skipped is no loss. -/
theorem eat_newline_bind {f : Bool → Parser β} (hf : ∀ found, Accounts w (f found) v) :
    Accounts w (eat .newline >>= f) v := by
  refine eat_bind (by simp) ((hf true).congr ?_) (hf false)
  simp

/-! ### Trials -/

/-- A trial that fails takes nothing. -/
theorem attempt_bind {f : Except ParseError α → Parser β} (hp : Accounts w p u)
    (hok : ∀ a, Accounts (u a) (f (.ok a)) v) (herror : ∀ e, Accounts w (f (.error e)) v) :
    Accounts w (attempt p >>= f) v := by
  intro s b s' hrun
  obtain ⟨r, s₁, hr, hb⟩ := bind_eq_ok hrun
  unfold attempt at hr
  cases hp' : p s with
  | ok a s₂ =>
    rw [hp'] at hr
    cases hr
    rw [hp s a _ hp']
    exact hok a _ b s' hb
  | error e s₂ =>
    rw [hp'] at hr
    cases hr
    exact herror e { s₂ with cursor := s.cursor } b s' hb

theorem attemptIf_bind {condition : Bool} {f : Option α → Parser β} (hp : Accounts w p u)
    (hsome : ∀ a, Accounts (u a) (f (some a)) v) (hnone : Accounts w (f none) v) :
    Accounts w (attemptIf condition p >>= f) v := by
  cases condition with
  | false => exact hnone
  | true =>
    simp only [attemptIf, if_true, bind_assoc, pure_bind]
    exact hp.attempt_bind hsome fun _ => hnone

end Accounts

namespace AccountsAt

/-- The token at the cursor is taken. -/
theorem advance_bind {f : PlacedToken → Parser β} (ht : t ≠ .endOfInput)
    (hf : ∀ x, Accounts (w ++ [t]) (f x) v) : AccountsAt t w (advance >>= f) v := by
  intro s b s' hat hrun
  rw [ParserState.pending_eq hat ht, ← List.append_assoc, ← significant_append]
  exact hf _ _ b s' hrun

theorem discard_advance_bind {f : Unit → Parser β} (ht : t ≠ .endOfInput)
    (hf : Accounts (w ++ [t]) (f ()) v) : AccountsAt t w (discard advance >>= f) v := by
  intro s b s' hat hrun
  rw [ParserState.pending_eq hat ht, ← List.append_assoc, ← significant_append]
  exact hf _ b s' hrun

/-- A look at the token behind the cursor changes nothing. -/
theorem peekFollowing_bind {f : Token → Parser β} (hf : ∀ x, AccountsAt t w (f x) v) :
    AccountsAt t w (peekFollowing >>= f) v := by
  intro s b s' hat hrun
  exact hf s.cursor.following s b s' hat hrun

theorem ite_true {p q : Parser α} (h : AccountsAt t w p u) :
    AccountsAt t w (if true = true then p else q) u := h

theorem ite {p q : Parser α} {c : Prop} [Decidable c] (hp : AccountsAt t w p u)
    (hq : AccountsAt t w q u) : AccountsAt t w (if c then p else q) u := by
  split
  · exact hp
  · exact hq

end AccountsAt

namespace Accounts

theorem failExpecting (expected : List String) : Accounts w (failExpecting (α := α) expected) u :=
  fail fun _ _ _ h => by cases h

theorem reject (note : String) : Accounts w (reject (α := α) note) u :=
  fail fun _ _ _ h => by cases h

theorem rejectAt (t : PlacedToken) (note : String) : Accounts w (rejectAt (α := α) t note) u :=
  fail fun _ _ _ h => by cases h

/-- In front of a keyword a line break is skipped. -/
theorem skipNewlineBefore_bind {k : Keyword} {f : Bool → Parser β}
    (htrue : AccountsAt (.keyword k) w (f true) v) (hfalse : Accounts w (f false) v) :
    Accounts w (skipNewlineBefore k >>= f) v := by
  intro s b s' hrun
  have hat : Accounts w (isAt (.keyword k) >>= f) v := isAt_bind htrue hfalse
  have heq : (skipNewlineBefore k >>= f) s = (isAt (.keyword k) >>= f)
      (if s.cursor.current.token = .newline ∧ s.cursor.following = .keyword k then
        { s with cursor := s.cursor.advance } else s) := by
    simp only [Bind.bind, EStateM.bind, skipNewlineBefore_run]
  rw [heq] at hrun
  have h := hat _ b s' hrun
  split at h
  · next hnewline =>
    rw [ParserState.pending_eq hnewline.1 (by simp)]
    simpa using h
  · exact h

end Accounts

end DrakeSyntax
