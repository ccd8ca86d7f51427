import DrakeSyntax.Grammar.Longest
import DrakeSyntax.Proofs.Step

/-!
# Agreement of two parsers

Two parsers agree (`Agree`) when, started at the same cursor, they come to the same outcome and
leave the same cursor, whatever outcomes each of them remembers. The rules below compose
agreements along the way parsers are composed.

An agreement also bounds cursors. All cursors stay on a walk (`Cursor.On`): not before the index
where it begins and not past its first end token. And an agreement `Agree w n m p q` speaks of
runs that begin with at most `n` tokens ahead and says that at most `m` are left on success, so
that `Agree w (n + 1) n p q` says that a success takes a token (`Takes`).

* `Agree.bind`, `Agree.ite`: composition and choice.
* `Agree.attempt_bind`, `Agree.longer`: trials, which put the cursor back.
* `agree_listWith`, `agree_delimited`: lists, whatever bound on their rounds either side has.
-/

namespace DrakeSyntax

/-- Tokens to walk over, where cursors may stand and what holds of remembered outcomes. -/
structure Walk where
  tokens : List PlacedToken
  hasEnd : ∃ t ∈ tokens, t.token = .endOfInput
  /-- No cursor comes before this index. -/
  floor : Nat
  /-- The property of the remembered outcomes. -/
  table : Std.TreeMap Nat BracketEntry → Prop

/-- The index of the first end token. -/
def Walk.finish (w : Walk) : Nat := w.tokens.findIdx (·.token == .endOfInput)

theorem Walk.finish_lt (w : Walk) : w.finish < w.tokens.length := by
  obtain ⟨t, ht, hend⟩ := w.hasEnd
  exact List.findIdx_lt_length_of_exists ⟨t, ht, by simp [hend]⟩

theorem Walk.token_finish (w : Walk) :
    (w.tokens.get ⟨w.finish, w.finish_lt⟩).token = .endOfInput := by
  have h := List.findIdx_getElem (w := w.finish_lt)
  exact LawfulBEq.eq_of_beq h

/-- The cursor stands on the walk. -/
structure Cursor.On (w : Walk) (c : Cursor) : Prop where
  rest : c.rest = w.tokens.drop c.index
  floor_le : w.floor ≤ c.index
  le_finish : c.index ≤ w.finish

variable {w : Walk} {c : Cursor}

namespace Cursor.On

theorem lt (h : c.On w) : c.index < w.tokens.length := Nat.lt_of_le_of_lt h.le_finish w.finish_lt

theorem current_eq (h : c.On w) : c.current = w.tokens.get ⟨c.index, h.lt⟩ := by
  rw [Cursor.current, h.rest, List.drop_eq_getElem_cons h.lt, List.get_eq_getElem]

theorem rest_eq_cons (h : c.On w) : c.rest = c.current :: w.tokens.drop (c.index + 1) := by
  rw [h.current_eq, h.rest, List.drop_eq_getElem_cons h.lt, List.get_eq_getElem]

theorem length_pos (h : c.On w) : 0 < c.rest.length := by
  rw [h.rest_eq_cons]; exact Nat.succ_pos _

/-- A token that does not end the input is left behind. -/
theorem advance_eq (h : c.On w) (ht : c.current.token ≠ .endOfInput) :
    c.advance = ⟨c.index + 1, w.tokens.drop (c.index + 1)⟩ := by
  rw [Cursor.advance, h.rest_eq_cons]
  exact if_neg ht

theorem advance_eq_self (h : c.On w) (ht : c.current.token = .endOfInput) : c.advance = c := by
  rw [Cursor.advance, h.rest_eq_cons]
  exact if_pos ht

theorem advance_length (h : c.On w) (ht : c.current.token ≠ .endOfInput) :
    c.advance.rest.length + 1 = c.rest.length := by
  rw [h.advance_eq ht, h.rest_eq_cons, List.length_cons]

theorem advance_length_le (h : c.On w) : c.advance.rest.length ≤ c.rest.length := by
  by_cases ht : c.current.token = .endOfInput
  · exact Nat.le_of_eq (congrArg (·.rest.length) (h.advance_eq_self ht))
  · have hlength := h.advance_length ht
    omega

/-- The cursor stays on the walk, since it does not pass an end token. -/
theorem advance (h : c.On w) : c.advance.On w := by
  by_cases ht : c.current.token = .endOfInput
  · rwa [h.advance_eq_self ht]
  · rw [h.advance_eq ht]
    -- the end token itself is not passed
    have hne : c.index ≠ w.finish := by
      intro heq
      rw [h.current_eq] at ht
      simp only [heq] at ht
      exact ht w.token_finish
    have hfloor := h.floor_le
    have hfinish := h.le_finish
    exact ⟨rfl, by simp only; omega, by simp only; omega⟩

end Cursor.On

/-- The outcomes of two runs are the same, with the same cursor and at most `m` tokens left. -/
inductive Alike (w : Walk) (m : Nat) {α : Type} :
    EStateM.Result ParseError ParserState α → EStateM.Result ParseError ParserState α → Prop
  | ok (a : α) {c : Cursor} {b b'} (on : c.On w) (room : c.rest.length ≤ m) (table : w.table b) :
    Alike w m (.ok a ⟨c, b⟩) (.ok a ⟨c, b'⟩)
  | error (e : ParseError) {c : Cursor} {b b'} (on : c.On w) (table : w.table b) :
    Alike w m (.error e ⟨c, b⟩) (.error e ⟨c, b'⟩)

/-- The parsers come to the same outcome from every cursor with at most `n` tokens ahead, and
leave at most `m` of them on success. The outcomes that the first one remembers keep the walk's
property; the second one may remember anything. -/
def Agree (w : Walk) (n m : Nat) {α : Type} (p q : Parser α) : Prop :=
  ∀ c b b', c.On w → c.rest.length ≤ n → w.table b → Alike w m (p ⟨c, b⟩) (q ⟨c, b'⟩)

/-- The parsers agree where the cursor is at the token `t`. -/
def AgreeAt (w : Walk) (t : PlacedToken) (n m : Nat) {α : Type} (p q : Parser α) : Prop :=
  ∀ c b b', c.On w → c.current = t → c.rest.length ≤ n → w.table b →
    Alike w m (p ⟨c, b⟩) (q ⟨c, b'⟩)

/-- The parsers agree with at most `n` tokens ahead, and take one when they succeed. -/
def Takes (w : Walk) (n : Nat) {α : Type} (p q : Parser α) : Prop :=
  ∀ m < n, Agree w (m + 1) m p q

theorem Alike.weaken {α : Type} {m m' : Nat} {r r' : EStateM.Result ParseError ParserState α}
    (h : Alike w m r r') (hm : m ≤ m') : Alike w m' r r' := by
  cases h with
  | ok a on room table => exact .ok a on (Nat.le_trans room hm) table
  | error e on table => exact .error e on table

variable {n m l : Nat} {α β : Type} {p p' : Parser α} {f f' : α → Parser β}

/-- What a run comes to, and the cursor that it leaves. -/
def ending : EStateM.Result ParseError ParserState α → Except ParseError α × Cursor
  | .ok a s => (.ok a, s.cursor)
  | .error e s => (.error e, s.cursor)

theorem Alike.ending_eq {r r' : EStateM.Result ParseError ParserState α}
    (h : Alike w m r r') : ending r = ending r' := by
  cases h <;> rfl

namespace Agree

/-- There is no cursor on the walk that has no tokens ahead. -/
theorem zero : Agree w 0 m p p' := by
  intro c b b' hc hn
  have := hc.length_pos
  omega

theorem weaken {n' m' : Nat} (h : Agree w n m p p') (hn : n' ≤ n) (hm : m ≤ m') :
    Agree w n' m' p p' := by
  intro c b b' hc hlen hb
  exact (h c b b' hc (Nat.le_trans hlen hn) hb).weaken hm

theorem pure (a : α) : Agree w n n (Pure.pure a) (Pure.pure a) := by
  intro c b b' hc hn hb
  exact .ok a hc hn hb

theorem bind (hp : Agree w n m p p') (hf : ∀ a, Agree w m l (f a) (f' a)) :
    Agree w n l (p >>= f) (p' >>= f') := by
  intro c b b' hc hn hb
  have h := hp c b b' hc hn hb
  simp only [Bind.bind, EStateM.bind]
  -- only what the two runs come to matters from here on
  generalize p ⟨c, b⟩ = r, p' ⟨c, b'⟩ = r' at h ⊢
  cases h with
  | ok a on room table => exact hf a _ _ _ on room table
  | error e on table => exact .error e on table

theorem map (g : α → β) (hp : Agree w n m p p') : Agree w n m (g <$> p) (g <$> p') := by
  intro c b b' hc hn hb
  have h := hp c b b' hc hn hb
  simp only [Functor.map, EStateM.map]
  generalize p ⟨c, b⟩ = r, p' ⟨c, b'⟩ = r' at h ⊢
  cases h with
  | ok a on room table => exact .ok _ on room table
  | error e on table => exact .error e on table

theorem discard (hp : Agree w n m p p') : Agree w n m (discard p) (discard p') := hp.map _

theorem ite {a a' b b' : Parser α} {t : Prop} [Decidable t] (ha : t → Agree w n m a a')
    (hb : ¬t → Agree w n m b b') : Agree w n m (if t then a else b) (if t then a' else b') := by
  split
  · exact ha ‹_›
  · exact hb ‹_›

/-- Two branches that go on alike. -/
theorem join {a a' b b' : Parser α} {t : Prop} [Decidable t] (ha : t → Agree w n m a a')
    (hb : ¬t → Agree w n m b b') (hf : ∀ x, Agree w m l (f x) (f' x)) :
    Agree w n l (if t then a >>= f else b >>= f) (if t then a' >>= f' else b' >>= f') :=
  ite (fun h => (ha h).bind hf) fun h => (hb h).bind hf

end Agree

namespace Takes

theorem mono {n' : Nat} (h : Takes w n p p') (hn : n' ≤ n) : Takes w n' p p' := by
  intro m hm
  exact h m (Nat.lt_of_lt_of_le hm hn)

theorem agree (h : Takes w (n + 1) p p') : Agree w (n + 1) n p p' := h n (Nat.lt_succ_self n)

/-- The token taken need not be counted. -/
theorem weak (h : Takes w n p p') : Agree w n n p p' := by
  cases n with
  | zero => exact Agree.zero
  | succ n => exact h.agree.weaken (Nat.le_refl _) (Nat.le_succ n)

end Takes

/-! ### Steps at the cursor -/

theorem agree_peek : Agree w n n Parser.peek Parser.peek := by
  intro c b b' hc hn hb
  exact .ok _ hc hn hb

theorem agree_peekFollowing : Agree w n n Parser.peekFollowing Parser.peekFollowing := by
  intro c b b' hc hn hb
  exact .ok _ hc hn hb

theorem agree_advance : Agree w n n Parser.advance Parser.advance := by
  intro c b b' hc hn hb
  exact .ok _ hc.advance (Nat.le_trans hc.advance_length_le hn) hb

theorem agree_isAt (t : Token) : Agree w n n (Parser.isAt t) (Parser.isAt t) :=
  agree_peek.bind fun _ => .pure _

theorem agree_failExpecting (expected : List String) :
    Agree w n m (Parser.failExpecting (α := α) expected) (Parser.failExpecting expected) := by
  intro c b b' hc _ hb
  exact .error _ hc hb

theorem agree_rejectAt (t : PlacedToken) (note : String) :
    Agree w n m (Parser.rejectAt (α := α) t note) (Parser.rejectAt t note) := by
  intro c b b' hc _ hb
  exact .error _ hc hb

theorem agree_reject (note : String) :
    Agree w n m (Parser.reject (α := α) note) (Parser.reject note) := by
  intro c b b' hc _ hb
  exact .error _ hc hb

/-- What comes behind a look at the token may use that the cursor is at it. -/
theorem Agree.peek_bind {f f' : PlacedToken → Parser β} (hf : ∀ t, AgreeAt w t n m (f t) (f' t)) :
    Agree w n m (Parser.peek >>= f) (Parser.peek >>= f') := by
  intro c b b' hc hn hb
  exact hf c.current c b b' hc rfl hn hb

theorem Agree.at {t : PlacedToken} (h : Agree w n m p p') : AgreeAt w t n m p p' := by
  intro c b b' hc _ hn hb
  exact h c b b' hc hn hb

theorem AgreeAt.advance_bind {t : PlacedToken} {f f' : Unit → Parser β}
    (ht : t.token ≠ .endOfInput) (hf : ∀ u, Agree w n m (f u) (f' u)) :
    AgreeAt w t (n + 1) m (discard Parser.advance >>= f) (discard Parser.advance >>= f') := by
  intro c b b' hc hat hn hb
  have := hc.advance_length (by rwa [hat])
  exact hf () c.advance b b' hc.advance (by omega) hb

/-- Whether a token is taken decides how many are left. -/
theorem Agree.eat_bind {t : Token} {f f' : Bool → Parser β} (ht : t ≠ .endOfInput)
    (htrue : Agree w n m (f true) (f' true)) (hfalse : Agree w (n + 1) m (f false) (f' false)) :
    Agree w (n + 1) m (Parser.eat t >>= f) (Parser.eat t >>= f') := by
  intro c b b' hc hn hb
  by_cases hat : c.current.token = t
  · have := hc.advance_length (by rwa [hat])
    -- a token less for the branch that took it
    rw [Parser.bind_of_ok (Parser.eat_of_eq hat), Parser.bind_of_ok (Parser.eat_of_eq hat)]
    exact htrue _ _ _ hc.advance (by simp only; omega) hb
  · rw [Parser.bind_of_ok (Parser.eat_of_ne hat), Parser.bind_of_ok (Parser.eat_of_ne hat)]
    exact hfalse _ _ _ hc hn hb

theorem agree_eat (t : Token) : Agree w n n (Parser.eat t) (Parser.eat t) :=
  (agree_isAt t).bind fun _ =>
    Agree.ite (fun _ => agree_advance.discard.bind fun _ => .pure _) fun _ => .pure _

theorem agree_expect (t : Token) : Agree w n n (Parser.expect t) (Parser.expect t) :=
  (agree_isAt t).bind fun _ =>
    Agree.ite (fun _ => agree_advance.bind fun _ => .pure _) fun _ => agree_failExpecting _

theorem takes_expect {t : Token} (ht : t ≠ .endOfInput) :
    Takes w n (Parser.expect t) (Parser.expect t) := by
  intro m _ c b b' hc hm hb
  by_cases hat : c.current.token = t
  · have := hc.advance_length (by rwa [hat])
    rw [Parser.expect_of_eq hat, Parser.expect_of_eq hat]
    exact .ok _ hc.advance (by simp only; omega) hb
  · rw [Parser.expect_of_ne hat, Parser.expect_of_ne hat]
    exact .error _ hc hb

theorem takes_identifier : Takes w n Parser.identifier Parser.identifier := by
  intro m _ c b b' hc hm hb
  by_cases hat : ∃ name, c.current.token = .identifier name
  · obtain ⟨name, hname⟩ := hat
    have := hc.advance_length (by rw [hname]; exact Token.noConfusion)
    rw [Parser.identifier_of_eq hname, Parser.identifier_of_eq hname]
    exact .ok _ hc.advance (by simp only; omega) hb
  · have hne : ∀ name, c.current.token ≠ .identifier name := fun name h => hat ⟨name, h⟩
    rw [Parser.identifier_of_ne hne, Parser.identifier_of_ne hne]
    exact .error _ hc hb

theorem agree_skipNewlineBefore (k : Keyword) :
    Agree w n n (Parser.skipNewlineBefore k) (Parser.skipNewlineBefore k) := by
  refine (agree_isAt _).bind fun atNewline => ?_
  refine agree_peekFollowing.bind fun following => ?_
  exact Agree.ite (fun _ => agree_advance.discard.bind fun _ => agree_isAt _) fun _ => agree_isAt _

/-! ### Trials -/

/-- What comes behind `mark` may use that the cursor stands on the walk. -/
theorem Agree.mark_bind {f f' : Cursor → Parser β}
    (hf : ∀ c, c.On w → c.rest.length ≤ n → Agree w n m (f c) (f' c)) :
    Agree w n m (Parser.mark >>= f) (Parser.mark >>= f') := by
  intro c b b' hc hn hb
  exact hf c hc hn c b b' hc hn hb

theorem agree_reset (hc : c.On w) (hm : c.rest.length ≤ m) :
    Agree w n m (Parser.reset c) (Parser.reset c) := by
  intro c' b b' _ _ hb
  exact .ok _ hc hm hb

/-- A failed trial leaves the cursor where it was. -/
theorem Agree.attempt_bind {f f' : Except ParseError α → Parser β} (hp : Agree w n l p p')
    (hok : ∀ a, Agree w l m (f (.ok a)) (f' (.ok a)))
    (herror : ∀ e, Agree w n m (f (.error e)) (f' (.error e))) :
    Agree w n m (Parser.attempt p >>= f) (Parser.attempt p' >>= f') := by
  intro c b b' hc hn hb
  have h := hp c b b' hc hn hb
  simp only [Bind.bind, EStateM.bind, Parser.attempt]
  generalize p ⟨c, b⟩ = r, p' ⟨c, b'⟩ = r' at h ⊢
  cases h with
  | ok a on room table => exact hok a _ _ _ on room table
  | error e _ table => exact herror e _ _ _ hc hn table

theorem Agree.attemptIf_bind {condition : Bool} {f f' : Option α → Parser β}
    (hp : Agree w n l p p') (hsome : ∀ a, Agree w l m (f (some a)) (f' (some a)))
    (hnone : Agree w n m (f none) (f' none)) :
    Agree w n m (Parser.attemptIf condition p >>= f) (Parser.attemptIf condition p' >>= f') := by
  cases condition with
  | false => exact hnone
  | true =>
    simp only [Parser.attemptIf, if_true, bind_assoc, pure_bind]
    exact hp.attempt_bind hsome fun _ => hnone

theorem Agree.attempt (hp : Agree w n n p p') :
    Agree w n n (Parser.attempt p) (Parser.attempt p') := by
  rw [← bind_pure (Parser.attempt p), ← bind_pure (Parser.attempt p')]
  exact hp.attempt_bind (fun _ => .pure _) fun _ => .pure _

theorem Agree.attemptIf (hp : Agree w n n p p') (condition : Bool) :
    Agree w n n (Parser.attemptIf condition p) (Parser.attemptIf condition p') := by
  rw [← bind_pure (Parser.attemptIf condition p), ← bind_pure (Parser.attemptIf condition p')]
  exact hp.attemptIf_bind (fun _ => .pure _) (.pure _)

/-- Both trials begin at the same place, so the longer one leaves what either would. -/
theorem Agree.longer {q q' : Parser β} (hp : Agree w n m p p') (hq : Agree w n m q q') :
    Agree w n m (Parser.longer p q) (Parser.longer p' q') := by
  refine Agree.mark_bind fun start hstart hroom => ?_
  refine hp.attempt_bind (fun a => ?_) fun e => ?_
  -- the first trial succeeded: its end is kept to go back to
  · refine Agree.mark_bind fun firstEnd hend hleft => (agree_reset hstart hroom).bind fun _ => ?_
    refine hq.attempt_bind (fun b => ?_) fun e => ?_
    · refine Agree.mark_bind fun secondEnd _ _ => Agree.ite (fun _ => .pure _) fun _ => ?_
      exact (agree_reset hend hleft).bind fun _ => .pure _
    · refine Agree.mark_bind fun secondEnd _ _ => ?_
      exact (agree_reset hend hleft).bind fun _ => .pure _
  -- the first trial failed: the second one starts where it did
  · refine Agree.mark_bind fun firstEnd _ _ => (agree_reset hstart hroom).bind fun _ => ?_
    refine hq.attempt_bind (fun b => ?_) fun e' => ?_
    · exact Agree.mark_bind fun secondEnd _ _ => .pure _
    · refine Agree.mark_bind fun secondEnd _ _ => (agree_reset hstart hroom).bind fun _ => ?_
      exact fun _ _ _ hc _ hb => .error _ hc hb

end DrakeSyntax
