import Mathlib.Data.Sum.Basic
import DrakeSyntax.Proofs.Balance
import DrakeSyntax.Proofs.Runs.ItemList
import DrakeSyntax.Proofs.Wording

/-!
# Two runs side by side

A parser is run over two sequences of tokens that have something to do with each other. A
`Coupling` says which cursors, errors and positions of the two runs belong together; from this the
same follows for whatever parsers are composed of single steps (`Coupling.Matches`).

Cursors belong together inside brackets of which the closing tokens are missing. The tokens may
belong together up to some place only, behind which anything may stand that ends an item of a
list or a key. There the runs are stopped: each of them sees that nothing more belongs to what it
reads, but no brackets are open there (`Coupling.Exact`).

* `Coupling.Matches`: two parsers come to outcomes that belong together.
* `Coupling.Matches.bind`, `Coupling.Matches.eat_ite`, `Coupling.Matches.peek_bind`: composition.
* `Coupling.Matches.longer`: the same one of two phrases is the longer one.
* `Stalls`: parsers that fail wherever an item or a key ends.
-/

namespace DrakeSyntax

open DrakeSyntax.Parser

/-- Whether a token stands between the items of a list or behind them. -/
def Token.separates (t : Token) : Bool := t == .newline || t.endsItem

theorem Token.separates_cases {t : Token} (h : t.separates) :
    t = .newline ∨ t = .punctuator .comma ∨ t = .punctuator .rightParen ∨
      t = .punctuator .rightBracket ∨ t = .punctuator .rightBrace ∨ t = .endOfInput := by
  rcases Bool.or_eq_true_iff.1 h with hnewline | hends
  · exact .inl (eq_of_beq hnewline)
  · exact .inr (Token.endsItem_cases hends)

/-- Whether an expression ends in front of the token: where an item of a list ends, or where a key
does. -/
def Token.halts (t : Token) : Bool := t.separates || t == .punctuator .colon

theorem Token.halts_of_separates {t : Token} (h : t.separates) : t.halts := by
  rw [halts, h]
  rfl

theorem Token.halts_cases {t : Token} (h : t.halts) :
    t = .newline ∨ t = .punctuator .comma ∨ t = .punctuator .rightParen ∨
      t = .punctuator .rightBracket ∨ t = .punctuator .rightBrace ∨ t = .endOfInput ∨
      t = .punctuator .colon := by
  rcases Bool.or_eq_true_iff.1 h with hseparates | hcolon
  · rcases separates_cases hseparates with h | h | h | h | h | h <;> simp [h]
  · simp [eq_of_beq hcolon]

/-- Whether the token is a keyword that a line break may stand in front of. -/
def Token.continues : Token → Bool
  | .keyword .then_ | .keyword .else_ | .keyword .catch_ | .keyword .finally_ => true
  | _ => false

namespace Cursor

/-- An end token is ahead. -/
def Ended (c : Cursor) : Prop := ∃ t ∈ c.rest, t.token = .endOfInput

/-- Nothing that stands at the cursor can go on with an expression in front of it. -/
structure Halts (c : Cursor) : Prop where
  token : c.current.token.halts
  newline : c.current.token = .newline → c.following.continues = false

variable {c : Cursor}

/-- Runs that never stop need not halt. -/
theorem halts_of_false {c' : Cursor} (h : False) : c.Halts ∧ c'.Halts := h.elim

theorem Ended.following_eq (h : c.Ended) (ht : c.current.token ≠ .endOfInput) :
    c.following = c.advance.current.token := by
  obtain ⟨index, rest⟩ := c
  obtain ⟨e, he, hend⟩ := h
  match rest with
  | [] => cases he
  | [t] =>
    obtain rfl := List.mem_singleton.1 he
    exact absurd hend ht
  | t :: u :: ts =>
    have hne : t.token ≠ .endOfInput := ht
    simp only [following, Cursor.advance, if_neg hne, current]

end Cursor

/-- Which cursors, errors and positions of two runs belong together. -/
structure Coupling where
  /-- The cursors stand at places that belong together, inside brackets of which the closing
  tokens are missing. -/
  rel : (missing : List Token) → Cursor → Cursor → Prop
  /-- The tokens that belong together end at the cursors. -/
  stopped : Cursor → Cursor → Prop
  /-- The errors belong together. -/
  err : ParseError → ParseError → Prop
  /-- Failures of the two runs may leave the cursors. -/
  left : Cursor → Cursor → Prop
  /-- What positions that belong together have in common. -/
  view : Position → Position
  ended {k c c'} : rel k c c' → c.Ended ∧ c'.Ended
  /-- The tokens that belong together do not end inside brackets. -/
  inside {t k c c'} : rel (t :: k) c c' → ¬stopped c c'
  halts {c c'} : stopped c c' → c.Halts ∧ c'.Halts
  token {k c c'} : rel k c c' → ¬stopped c c' → c.current.token = c'.current.token
  position {k c c'} : rel k c c' → ¬stopped c c' →
    view c.current.position = view c'.current.position
  step {k l c c'} : rel k c c' → ¬stopped c c' → c.current.token.shift k = some l →
    rel l c.advance c'.advance
  /-- The cursors that belong together are in the same order. -/
  index {k l c c' d d'} : rel k c c' → rel l d d' → (c.index < d.index ↔ c'.index < d'.index)
  /-- A parser lists what it looks for, or it has a note. -/
  unexpected {k c c' expected} : Listable expected → rel k c c' →
    err (.unexpected expected c.current) (.unexpected expected c'.current)
  structural {k c c' note} : Notable note → rel k c c' →
    err (.structural note c.current) (.structural note c'.current)
  leaves {k c c'} : rel k c c' → left c c'
  /-- Where the runs are stopped, any errors belong together, whatever cursors they leave. -/
  halted {c c'} (e e' : ParseError) (d d' : Cursor) : stopped c c' → err e e' ∧ left d d'
  /-- The errors that belong together are in the same order. -/
  farther {d e d' e'} : err d d' → err e e' →
    err (if d.position.offset < e.position.offset then e else d)
      (if d'.position.offset < e'.position.offset then e' else d')

/-- The parser fails wherever an item or a key ends. -/
def Stalls {α : Type} (p : Parser α) : Prop :=
  ∀ s : ParserState, s.cursor.current.token.halts → ∃ e s', p s = .error e s'

namespace Stalls

variable {α β : Type} {p : Parser α} {f : α → Parser β} {t : Token}

theorem bind (h : Stalls p) : Stalls (p >>= f) := by
  intro s hs
  obtain ⟨e, s', he⟩ := h s hs
  exact ⟨e, s', bind_of_error he⟩

/-- What the first part of a composition finds where an item or a key ends is known. -/
theorem look_bind {a : α}
    (hp : ∀ s : ParserState, s.cursor.current.token.halts → p s = .ok a s)
    (hf : Stalls (f a)) : Stalls (p >>= f) := by
  intro s hs
  obtain ⟨e, s', he⟩ := hf s hs
  exact ⟨e, s', by rw [bind_of_ok (hp s hs), he]⟩

theorem discard_bind {f : Unit → Parser β} (h : Stalls p) : Stalls (discard p >>= f) := by
  rw [Parser.discard_bind]
  exact h.bind

theorem failExpecting (expected : List String) : Stalls (failExpecting (α := α) expected) :=
  fun _ _ => ⟨_, _, rfl⟩

theorem peek_bind {f : PlacedToken → Parser β} (h : ∀ t, t.token.halts → Stalls (f t)) :
    Stalls (peek >>= f) :=
  fun s hs => h s.cursor.current hs s hs

theorem current_ne {s : ParserState} (hs : s.cursor.current.token.halts)
    (ht : t.halts = false) : s.cursor.current.token ≠ t := by
  rintro rfl
  rw [hs] at ht
  cases ht

theorem isAt_ite {p q : Parser β} (ht : t.halts = false) (h : Stalls q) :
    Stalls (isAt t >>= fun found => if found then p else q) := by
  refine look_bind (a := false) (fun s hs => ?_) h
  rw [isAt_run, beq_false_of_ne (current_ne hs ht)]

theorem eat_bind {f : Bool → Parser β} (ht : t.halts = false) (h : Stalls (f false)) :
    Stalls (eat t >>= f) :=
  look_bind (fun _ hs => eat_of_ne (current_ne hs ht)) h

theorem expect (ht : t.halts = false) : Stalls (expect t) :=
  fun _ hs => ⟨_, _, expect_of_ne (current_ne hs ht)⟩

theorem identifier : Stalls identifier :=
  fun _ hs => ⟨_, _, identifier_of_ne fun _ => current_ne hs rfl⟩

end Stalls

namespace Coupling

variable {K : Coupling} {k l m : List Token} {t : Token} {c c' : Cursor}

/-- The coupling, with all failures belonging together. -/
def lax (K : Coupling) : Coupling where
  __ := K
  err _ _ := True
  left _ _ := True
  unexpected _ _ := trivial
  structural _ _ := trivial
  leaves _ := trivial
  halted _ _ _ _ _ := ⟨trivial, trivial⟩
  farther _ _ := trivial

/-- The outcomes of two runs belong together: results that are related by `V` with cursors that
lack the closing tokens `l`, or errors with cursors that failures may leave. -/
inductive Outcome (K : Coupling) (l : List Token) {α β : Type} (V : α → β → Prop) :
    EStateM.Result ParseError ParserState α → EStateM.Result ParseError ParserState β → Prop
  | ok {a b s s'} (rel : K.rel l s.cursor s'.cursor) (value : V a b) :
    Outcome K l V (.ok a s) (.ok b s')
  | error {e e' s s'} (err : K.err e e') (left : K.left s.cursor s'.cursor) :
    Outcome K l V (.error e s) (.error e' s')

/-- Started at cursors that belong together and lack the closing tokens `k`, the parsers come to
outcomes that belong together, with those of `l` missing. -/
def Matches (K : Coupling) (k l : List Token) {α β : Type} (V : α → β → Prop) (p : Parser α)
    (q : Parser β) : Prop :=
  ∀ s s' : ParserState, K.rel k s.cursor s'.cursor → Outcome K l V (p s) (q s')

/-- The parsers come to outcomes that belong together where both cursors are at the token `t`. -/
def MatchesOn (K : Coupling) (t : Token) (k l : List Token) {α β : Type} (V : α → β → Prop)
    (p : Parser α) (q : Parser β) : Prop :=
  ∀ s s' : ParserState, K.rel k s.cursor s'.cursor → ¬K.stopped s.cursor s'.cursor →
    s.cursor.current.token = t → Outcome K l V (p s) (q s')

/-- The two tokens are the same but for positions, which belong together. -/
structure Met (K : Coupling) (t t' : PlacedToken) : Prop where
  token : t.token = t'.token
  position : K.view t.position = K.view t'.position
  structural : ∀ note, Notable note → K.err (.structural note t) (.structural note t')

/-- The runs do not stop where the closing tokens `k` are missing. -/
def Exact (K : Coupling) (k : List Token) : Prop := ∀ c c', K.rel k c c' → ¬K.stopped c c'

/-- Positions that belong together. -/
abbrev Near (K : Coupling) (p q : Position) : Prop := K.view p = K.view q

theorem exact_cons : K.Exact (t :: k) := fun _ _ => K.inside

theorem met (h : K.rel k c c') (hstop : ¬K.stopped c c') : K.Met c.current c'.current :=
  ⟨K.token h hstop, K.position h hstop, fun _ hnote => K.structural hnote h⟩

/-- The runs do not stop at a token that goes on with an expression. -/
theorem not_stopped (h : c.current.token.halts = false) : ¬K.stopped c c' := by
  intro hstop
  rw [(K.halts hstop).1.token] at h
  cases h

/-- The token that is looked for is found in both runs or in neither. -/
theorem current_eq_iff (h : K.rel k c c') (ht : K.Exact k ∨ t.halts = false) :
    c.current.token = t ↔ c'.current.token = t := by
  by_cases hstop : K.stopped c c'
  · rcases ht with hexact | ht
    · exact absurd hstop (hexact c c' h)
    · -- an expression ends at both cursors
      obtain ⟨hhalts, hhalts'⟩ := K.halts hstop
      constructor
      · rintro rfl
        rw [hhalts.token] at ht
        cases ht
      · rintro rfl
        rw [hhalts'.token] at ht
        cases ht
  · rw [K.token h hstop]

theorem stopped_false_of_current (h : K.rel k c c') (ht : K.Exact k ∨ t.halts = false)
    (hat : c.current.token = t) : ¬K.stopped c c' := by
  rcases ht with hexact | ht
  · exact hexact c c' h
  · exact not_stopped (hat ▸ ht)

/-- Behind a token that is no bracket the same token follows in both runs, or each of them has
something that ends an expression there. -/
theorem following_eq_or (h : K.rel k c c') (hstop : ¬K.stopped c c')
    (hplain : c.current.token.isPlain) :
    c.following = c'.following ∨ c.following.halts ∧ c'.following.halts := by
  have hend := Token.ne_endOfInput_of_isPlain hplain
  obtain ⟨hended, hended'⟩ := K.ended h
  rw [hended.following_eq hend, hended'.following_eq (K.token h hstop ▸ hend)]
  have hadvance := K.step h hstop (Token.shift_of_isPlain hplain k)
  by_cases hstop' : K.stopped c.advance c'.advance
  · exact .inr ⟨(K.halts hstop').1.token, (K.halts hstop').2.token⟩
  · exact .inl (K.token hadvance hstop')

/-- Where the runs do not stop, the same token follows. -/
theorem following_eq (h : K.rel k c c') (hexact : K.Exact k) (hplain : c.current.token.isPlain) :
    c.following = c'.following := by
  have hend := Token.ne_endOfInput_of_isPlain hplain
  obtain ⟨hended, hended'⟩ := K.ended h
  have hstop := hexact c c' h
  rw [hended.following_eq hend, hended'.following_eq (K.token h hstop ▸ hend)]
  have hadvance := K.step h hstop (Token.shift_of_isPlain hplain k)
  exact K.token hadvance (hexact _ _ hadvance)

variable {α β γ δ : Type} {V : α → β → Prop} {W : γ → δ → Prop}
variable {p : Parser α} {q : Parser β} {f : α → Parser γ} {f' : β → Parser δ}

theorem Outcome.weaken {V' : α → β → Prop} {r r'} (h : Outcome K l V r r')
    (hV : ∀ a b, V a b → V' a b) : Outcome K l V' r r' := by
  cases h with
  | ok rel value => exact .ok rel (hV _ _ value)
  | error err left => exact .error err left

theorem Outcome.lax {r r'} (h : Outcome K l V r r') : Outcome K.lax l V r r' := by
  cases h with
  | ok rel value => exact .ok rel value
  | error err left => exact .error trivial trivial

theorem Outcome.bind {s s' : ParserState} (h : Outcome K l V (p s) (q s'))
    (hf : ∀ a b, V a b → K.Matches l m W (f a) (f' b)) :
    Outcome K m W ((p >>= f) s) ((q >>= f') s') := by
  simp only [Bind.bind, EStateM.bind]
  -- only what the two runs come to matters from here on
  generalize p s = r, q s' = r' at h ⊢
  cases h with
  | ok hrel value => exact hf _ _ value _ _ hrel
  | error err left => exact .error err left

namespace Matches

theorem weaken {V' : α → β → Prop} (h : K.Matches k l V p q) (hV : ∀ a b, V a b → V' a b) :
    K.Matches k l V' p q :=
  fun s s' hrel => (h s s' hrel).weaken hV

theorem pure {a : α} {b : β} (h : V a b) : K.Matches k k V (Pure.pure a) (Pure.pure b) :=
  fun _ _ hrel => .ok hrel h

theorem bind (hp : K.Matches k l V p q) (hf : ∀ a b, V a b → K.Matches l m W (f a) (f' b)) :
    K.Matches k m W (p >>= f) (q >>= f') :=
  fun s s' hrel => (hp s s' hrel).bind hf

theorem map {g : α → γ} {g' : β → δ} (hp : K.Matches k l V p q)
    (hg : ∀ a b, V a b → W (g a) (g' b)) : K.Matches k l W (g <$> p) (g' <$> q) := by
  rw [← bind_pure_comp, ← bind_pure_comp]
  exact hp.bind fun a b hv => .pure (hg a b hv)

theorem discard_bind {h : Unit → Parser γ} {h' : Unit → Parser δ} (hp : K.Matches k l V p q)
    (hf : K.Matches l m W (h ()) (h' ())) :
    K.Matches k m W (discard p >>= h) (discard q >>= h') := by
  rw [Parser.discard_bind, Parser.discard_bind]
  exact hp.bind fun _ _ _ => hf

theorem ite {p' : Parser α} {q' : Parser β} {P P' : Prop} [Decidable P] [Decidable P']
    (hP : P ↔ P') (hp : P → K.Matches k l V p q) (hp' : ¬P → K.Matches k l V p' q') :
    K.Matches k l V (if P then p else p') (if P' then q else q') := by
  by_cases h : P
  · rw [if_pos h, if_pos (hP.1 h)]
    exact hp h
  · rw [if_neg h, if_neg fun h' => h (hP.2 h')]
    exact hp' h

/-- Two branches that go on alike. -/
theorem join {p' : Parser α} {q' : Parser β} {P P' : Prop} [Decidable P] [Decidable P']
    (hP : P ↔ P') (hp : P → K.Matches k l V p q) (hp' : ¬P → K.Matches k l V p' q')
    (hf : ∀ a b, V a b → K.Matches l m W (f a) (f' b)) :
    K.Matches k m W (if P then p >>= f else p' >>= f) (if P' then q >>= f' else q' >>= f') :=
  ite hP (fun h => (hp h).bind hf) fun h => (hp' h).bind hf

theorem lax (h : K.Matches k l V p q) : K.lax.Matches k l V p q :=
  fun s s' hrel => (h s s' hrel).lax

theorem on (h : K.Matches k l V p q) : K.MatchesOn t k l V p q :=
  fun s s' hrel _ _ => h s s' hrel

end Matches

/-! ### Steps at the cursor -/

theorem matches_failExpecting {expected : List String} (h : Listable expected) :
    K.Matches k l V (failExpecting expected) (failExpecting expected) :=
  fun _ _ hrel => .error (K.unexpected h hrel) (K.leaves hrel)

theorem matches_reject {note : String} (h : Notable note) :
    K.Matches k l V (reject note) (reject note) :=
  fun _ _ hrel => .error (K.structural h hrel) (K.leaves hrel)

theorem matches_rejectAt {t t' : PlacedToken} (h : K.Met t t') {note : String}
    (hnote : Notable note) : K.Matches k l V (rejectAt t note) (rejectAt t' note) :=
  fun _ _ hrel => .error (h.structural note hnote) (K.leaves hrel)

/-- Where the token is found, both cursors are at it. -/
theorem Matches.isAt_bind {f : Bool → Parser γ} {f' : Bool → Parser δ}
    (ht : K.Exact k ∨ t.halts = false) (htrue : K.MatchesOn t k l W (f true) (f' true))
    (hfalse : K.Matches k l W (f false) (f' false)) :
    K.Matches k l W (isAt t >>= f) (isAt t >>= f') := by
  intro s s' hrel
  have hiff := current_eq_iff hrel ht
  rw [bind_of_ok (isAt_run t s), bind_of_ok (isAt_run t s')]
  by_cases hat : s.cursor.current.token = t
  · rw [beq_iff_eq.2 hat, beq_iff_eq.2 (hiff.1 hat)]
    exact htrue _ _ hrel (stopped_false_of_current hrel ht hat) hat
  · rw [beq_false_of_ne hat, beq_false_of_ne fun hat' => hat (hiff.2 hat')]
    exact hfalse _ _ hrel

theorem Matches.isAt_ite {p p' : Parser γ} {q q' : Parser δ}
    (ht : K.Exact k ∨ t.halts = false) (htrue : K.MatchesOn t k l W p q)
    (hfalse : K.Matches k l W p' q') :
    K.Matches k l W (isAt t >>= fun found => if found then p else p')
      (isAt t >>= fun found => if found then q else q') :=
  Matches.isAt_bind ht htrue hfalse

/-- Whether a token is taken decides which closing tokens are missing. -/
theorem Matches.eat_bind {f : Bool → Parser γ} {f' : Bool → Parser δ}
    (ht : K.Exact k ∨ t.halts = false) (hshift : t.shift k = some l)
    (htrue : K.Matches l m W (f true) (f' true)) (hfalse : K.Matches k m W (f false) (f' false)) :
    K.Matches k m W (eat t >>= f) (eat t >>= f') := by
  intro s s' hrel
  have hiff := current_eq_iff hrel ht
  by_cases hat : s.cursor.current.token = t
  · rw [bind_of_ok (eat_of_eq hat), bind_of_ok (eat_of_eq (hiff.1 hat))]
    have hstop := stopped_false_of_current hrel ht hat
    exact htrue _ _ (K.step hrel hstop (hat ▸ hshift))
  · rw [bind_of_ok (eat_of_ne hat), bind_of_ok (eat_of_ne fun hat' => hat (hiff.2 hat'))]
    exact hfalse _ _ hrel

theorem Matches.eat_ite {p p' : Parser γ} {q q' : Parser δ}
    (ht : K.Exact k ∨ t.halts = false) (hshift : t.shift k = some l)
    (htrue : K.Matches l m W p q) (hfalse : K.Matches k m W p' q') :
    K.Matches k m W (eat t >>= fun found => if found then p else p')
      (eat t >>= fun found => if found then q else q') :=
  Matches.eat_bind ht hshift htrue hfalse

theorem matches_eat (ht : K.Exact k ∨ t.halts = false) (hshift : t.shift k = some k) :
    K.Matches k k (· = ·) (eat t) (eat t) := by
  rw [← bind_pure (eat t)]
  exact Matches.eat_bind ht hshift (.pure rfl) (.pure rfl)

theorem matches_expect (ht : K.Exact k ∨ t.halts = false) (hshift : t.shift k = some l)
    (hfixed : t.isFixed) : K.Matches k l K.Near (expect t) (expect t) := by
  intro s s' hrel
  have hiff := current_eq_iff hrel ht
  by_cases hat : s.cursor.current.token = t
  · rw [expect_of_eq hat, expect_of_eq (hiff.1 hat)]
    have hstop := stopped_false_of_current hrel ht hat
    exact .ok (K.step hrel hstop (hat ▸ hshift)) (K.position hrel hstop)
  · rw [expect_of_ne hat, expect_of_ne fun hat' => hat (hiff.2 hat')]
    exact .error (K.unexpected (.singleton (Token.oneLine_of_isFixed hfixed)) hrel) (K.leaves hrel)

theorem matches_identifier :
    K.Matches k k (fun a b => a.1 = b.1 ∧ K.Near a.2 b.2) identifier identifier := by
  intro s s' hrel
  have hiff (name : String) := current_eq_iff (t := .identifier name) hrel (.inr rfl)
  by_cases hat : ∃ name, s.cursor.current.token = .identifier name
  · obtain ⟨name, hname⟩ := hat
    rw [identifier_of_eq hname, identifier_of_eq ((hiff name).1 hname)]
    have hstop := stopped_false_of_current (t := .identifier name) hrel (.inr rfl) hname
    refine .ok (K.step hrel hstop ?_) ⟨rfl, K.position hrel hstop⟩
    rw [hname]
    rfl
  · rw [identifier_of_ne fun name h => hat ⟨name, h⟩,
      identifier_of_ne fun name h => hat ⟨name, (hiff name).2 h⟩]
    exact .error (K.unexpected (by decide) hrel) (K.leaves hrel)

/-- What comes behind a look at the token may use that both cursors are at it. Where the runs may
be stopped, it has to fail there. -/
theorem Matches.peek_bind {f : PlacedToken → Parser γ} {f' : PlacedToken → Parser δ}
    (hstall : K.Exact k ∨ ∀ t, t.token.halts → Stalls (f t) ∧ Stalls (f' t))
    (h : ∀ t t', K.Met t t' → K.MatchesOn t.token k l W (f t) (f' t')) :
    K.Matches k l W (peek >>= f) (peek >>= f') := by
  intro s s' hrel
  rw [bind_of_ok (rfl : peek s = .ok s.cursor.current s),
    bind_of_ok (rfl : peek s' = .ok s'.cursor.current s')]
  by_cases hstop : K.stopped s.cursor s'.cursor
  · rcases hstall with hexact | hstall
    · exact absurd hstop (hexact _ _ hrel)
    · obtain ⟨hhalts, hhalts'⟩ := K.halts hstop
      obtain ⟨e, r, he⟩ := (hstall _ hhalts.token).1 s hhalts.token
      obtain ⟨e', r', he'⟩ := (hstall _ hhalts'.token).2 s' hhalts'.token
      rw [he, he']
      obtain ⟨herr, hleft⟩ := K.halted e e' r.cursor r'.cursor hstop
      exact .error herr hleft
  · exact h _ _ (K.met hrel hstop) s s' hrel hstop rfl

namespace MatchesOn

theorem bind (hp : K.MatchesOn t k l V p q) (hf : ∀ a b, V a b → K.Matches l m W (f a) (f' b)) :
    K.MatchesOn t k m W (p >>= f) (q >>= f') :=
  fun s s' hrel hstop hat => (hp s s' hrel hstop hat).bind hf

theorem ite {p' : Parser α} {q' : Parser β} {P : Prop} [Decidable P]
    (hp : P → K.MatchesOn t k l V p q) (hp' : ¬P → K.MatchesOn t k l V p' q') :
    K.MatchesOn t k l V (if P then p else p') (if P then q else q') := by
  split
  · exact hp ‹_›
  · exact hp' ‹_›

/-- Where the runs do not stop, the same token follows. -/
theorem peekFollowing_bind {f : Token → Parser γ} {f' : Token → Parser δ} (hexact : K.Exact k)
    (ht : t.isPlain) (h : ∀ u, K.MatchesOn t k l W (f u) (f' u)) :
    K.MatchesOn t k l W (peekFollowing >>= f) (peekFollowing >>= f') := by
  intro s s' hrel hstop hat
  rw [bind_of_ok (rfl : peekFollowing s = .ok s.cursor.following s),
    bind_of_ok (rfl : peekFollowing s' = .ok s'.cursor.following s'),
    following_eq hrel hexact (hat ▸ ht)]
  exact h _ s s' hrel hstop hat

theorem advance_bind {f : PlacedToken → Parser γ} {f' : PlacedToken → Parser δ}
    (hshift : t.shift k = some l)
    (h : ∀ u u', K.Met u u' → u.token = t → K.Matches l m W (f u) (f' u')) :
    K.MatchesOn t k m W (advance >>= f) (advance >>= f') := by
  intro s s' hrel hstop hat
  exact h _ _ (K.met hrel hstop) hat _ _ (K.step hrel hstop (hat ▸ hshift))

theorem discard_advance_bind {f : Unit → Parser γ} {f' : Unit → Parser δ}
    (hshift : t.shift k = some l) (h : K.Matches l m W (f ()) (f' ())) :
    K.MatchesOn t k m W (discard advance >>= f) (discard advance >>= f') := by
  rw [Parser.discard_bind, Parser.discard_bind]
  exact advance_bind hshift fun _ _ _ _ => h

end MatchesOn

/-- A keyword behind a line break is found in both runs or in neither, also where they are
stopped. -/
theorem skipNewlineBefore_iff {w : Keyword} (hw : (Token.keyword w).continues)
    (hrel : K.rel k c c') :
    c.current.token = .newline ∧ c.following = .keyword w ↔
      c'.current.token = .newline ∧ c'.following = .keyword w := by
  by_cases hstop : K.stopped c c'
  · obtain ⟨hhalts, hhalts'⟩ := K.halts hstop
    have hnot {d : Cursor} (hd : d.Halts) :
        ¬(d.current.token = .newline ∧ d.following = .keyword w) := by
      rintro ⟨hnewline, hfollowing⟩
      have hnone := hd.newline hnewline
      rw [hfollowing, hw] at hnone
      cases hnone
    exact iff_of_false (hnot hhalts) (hnot hhalts')
  · rw [← K.token hrel hstop]
    refine and_congr_right fun hnewline => ?_
    have hplain : c.current.token.isPlain := by
      rw [hnewline]
      rfl
    rcases following_eq_or hrel hstop hplain with heq | ⟨hends, hends'⟩
    · rw [heq]
    · have hne {u : Token} (hu : u.halts) : u ≠ .keyword w := by
        rintro rfl
        cases hu
      exact iff_of_false (hne hends) (hne hends')

theorem Matches.skipNewlineBefore_bind {w : Keyword} {f : Bool → Parser γ} {f' : Bool → Parser δ}
    (hw : (Token.keyword w).continues)
    (htrue : K.MatchesOn (.keyword w) k m W (f true) (f' true))
    (hfalse : K.Matches k m W (f false) (f' false)) :
    K.Matches k m W (skipNewlineBefore w >>= f) (skipNewlineBefore w >>= f') := by
  intro s s' hrel
  -- the keyword is looked for once the line break is skipped
  have hfound := Matches.isAt_bind (t := .keyword w) (.inr rfl) htrue hfalse
  have hskips := skipNewlineBefore_iff hw hrel
  simp only [Bind.bind, EStateM.bind, skipNewlineBefore_run]
  by_cases hskip : s.cursor.current.token = .newline ∧ s.cursor.following = .keyword w
  · rw [if_pos hskip, if_pos (hskips.1 hskip)]
    refine hfound _ _ (K.step hrel ?_ ?_)
    · intro hstop
      have hnone := (K.halts hstop).1.newline hskip.1
      rw [hskip.2, hw] at hnone
      cases hnone
    · rw [hskip.1]
      rfl
  · rw [if_neg hskip, if_neg fun h => hskip (hskips.2 h)]
    exact hfound _ _ hrel

theorem Matches.skipNewlineBefore_ite {w : Keyword} {p p' : Parser γ} {q q' : Parser δ}
    (hw : (Token.keyword w).continues) (htrue : K.MatchesOn (.keyword w) k m W p q)
    (hfalse : K.Matches k m W p' q') :
    K.Matches k m W (skipNewlineBefore w >>= fun found => if found then p else p')
      (skipNewlineBefore w >>= fun found => if found then q else q') :=
  Matches.skipNewlineBefore_bind hw htrue hfalse

theorem matches_skipNewlineBefore {w : Keyword} (hw : (Token.keyword w).continues) :
    K.Matches k k (· = ·) (skipNewlineBefore w) (skipNewlineBefore w) := by
  rw [← bind_pure (skipNewlineBefore w)]
  exact Matches.skipNewlineBefore_bind hw (Matches.pure rfl).on (.pure rfl)

/-! ### Trials -/

theorem Matches.mark_bind {f : Cursor → Parser γ} {f' : Cursor → Parser δ}
    (hf : ∀ c c', K.rel k c c' → K.Matches k l W (f c) (f' c')) :
    K.Matches k l W (mark >>= f) (mark >>= f') :=
  fun s s' hrel => hf s.cursor s'.cursor hrel s s' hrel

theorem Matches.reset_bind {f : Unit → Parser γ} {f' : Unit → Parser δ} (hc : K.rel l c c')
    (hf : K.Matches l m W (f ()) (f' ())) :
    K.Matches k m W (reset c >>= f) (reset c' >>= f') :=
  fun _ _ _ => hf _ _ hc

/-- A failed trial leaves the cursors where they were, so it does not matter how it fails. -/
theorem Matches.attempt_bind {f : Except ParseError α → Parser γ} {f' : Except ParseError β → Parser δ}
    (hp : K.lax.Matches k l V p q) (hok : ∀ a b, V a b → K.Matches l m W (f (.ok a)) (f' (.ok b)))
    (herror : ∀ e e', K.Matches k m W (f (.error e)) (f' (.error e'))) :
    K.Matches k m W (attempt p >>= f) (attempt q >>= f') := by
  intro s s' hrel
  have h := hp s s' hrel
  simp only [Bind.bind, EStateM.bind, attempt]
  generalize p s = r, q s' = r' at h ⊢
  cases h with
  | ok hrel' value => exact hok _ _ value _ _ hrel'
  | error err => exact herror _ _ _ _ hrel

theorem Matches.attemptIf_bind {condition : Bool} {f : Option α → Parser γ}
    {f' : Option β → Parser δ} (hp : condition = true → K.lax.Matches k l V p q)
    (hsome : ∀ a b, V a b → K.Matches l m W (f (some a)) (f' (some b)))
    (hnone : K.Matches k m W (f none) (f' none)) :
    K.Matches k m W (attemptIf condition p >>= f) (attemptIf condition q >>= f') := by
  cases condition with
  | false => exact hnone
  | true =>
    simp only [attemptIf, if_true, bind_assoc, pure_bind]
    exact (hp rfl).attempt_bind hsome fun _ _ => hnone

/-- The same one of two outcomes is the longer one, and of two errors the same one lies further
on. -/
theorem Outcome.longer {rp rq rp' rq'} (hrel : K.rel k c c') (hp : Outcome K l V rp rp')
    (hq : Outcome K l W rq rq') :
    Outcome K l (Sum.LiftRel V W) (longerOf c rp rq) (longerOf c' rp' rq') := by
  cases hp with
  | @ok a b s₁ s₁' hrel₁ value =>
    cases hq with
    | @ok _ _ s₂ s₂' hrel₂ value' =>
      simp only [longerOf]
      by_cases hlt : s₁.cursor.index < s₂.cursor.index
      · rw [if_pos hlt, if_pos ((K.index hrel₁ hrel₂).1 hlt)]
        exact .ok hrel₂ (.inr value')
      · rw [if_neg hlt, if_neg fun h => hlt ((K.index hrel₁ hrel₂).2 h)]
        exact .ok hrel₁ (.inl value)
    | error => exact .ok hrel₁ (.inl value)
  | error err =>
    cases hq with
    | ok hrel₂ value' => exact .ok hrel₂ (.inr value')
    | error err' => exact .error (K.farther err err') (K.leaves hrel)

/-- **The same one of two phrases is the longer one.** -/
theorem Matches.longer {p' : Parser γ} {q' : Parser δ} (hp : K.Matches k l V p q)
    (hq : K.Matches k l W p' q') :
    K.Matches k l (Sum.LiftRel V W) (longer p p') (longer q q') := by
  intro s s' hrel
  obtain ⟨b, hlonger, -⟩ := exists_longer_eq p p' s
  obtain ⟨b', hlonger', -⟩ := exists_longer_eq q q' s'
  rw [hlonger, hlonger']
  exact (hp s s' hrel).longer hrel (hq _ _ hrel)

end Coupling

end DrakeSyntax
