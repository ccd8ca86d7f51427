import DrakeSyntax.Proofs.Confined
import DrakeSyntax.Proofs.Leading

/-!
# The longest match in lists of two kinds

An item parser (`ReadsItem`) comes to the same from a cursor whatever is remembered, and takes a
token. Of two of them the one that ends further on is meant, the first one on a tie (`Chooses`), and
`longer` comes to what that one comes to alone (`ReadsItem.comesToLonger`). A list reads its items
one after the other, with nothing between them but a separator (`InOrder`); no token is read twice
or left out. In a list of two kinds the items of the second kind are behind those of the first, and
all of them but the first are read without a trial.

* `occurrences_listWith`: the items of a list, with the states before and behind each.
* `ReadsItem.longest_match`: **the longest match is taken and not gone back on.**
* `ReadsItem.of_takes`: phrases that take a token are items of a list, from every state that a
  parser comes to.
-/

namespace DrakeSyntax

open DrakeSyntax.Parser

variable {α β : Type} {R : ParserState → Prop} {p : Parser α} {q : Parser β}
variable {s s' : ParserState}

/-- The cursor may be moved among the states: one token on, and to where another one of them has
it. They have the same number of tokens, behind the cursor and from it on. -/
structure CursorMoves (R : ParserState → Prop) : Prop where
  advance {s : ParserState} : R s → R { s with cursor := s.cursor.advance }
  reset {s s' : ParserState} : R s → R s' → R { s' with cursor := s.cursor }
  length_eq {s s' : ParserState} : R s → R s' →
    s.cursor.index + s.cursor.rest.length = s'.cursor.index + s'.cursor.rest.length

/-- The parser moves on from each of the states when it succeeds, and leaves one of them in any
case. -/
structure Proceeds (R : ParserState → Prop) (p : Parser α) : Prop where
  stays {s : ParserState} : R s → R (stateAfter (p s))
  forward {s : ParserState} {a : α} {s' : ParserState} : R s → p s = .ok a s' →
    s.cursor.index < s'.cursor.index

/-- The parser reads an item: what it comes to and the cursor that it leaves depend on the cursor
only, and a success moves on. -/
structure ReadsItem (R : ParserState → Prop) (p : Parser α) : Prop extends Proceeds R p where
  ending_eq {s s' : ParserState} : R s → R s' → s'.cursor = s.cursor →
    ending (p s') = ending (p s)

/-- The item that is meant where items of two kinds are possible, and the cursor behind it: the one
that ends further on, that of the first kind if both end at the same place. -/
inductive Chooses (p : Parser α) (q : Parser β) (s : ParserState) : α ⊕ β → Cursor → Prop
  | inl {a : α} {c : Cursor} (read : ending (p s) = (.ok a, c))
    (le : ∀ b c', ending (q s) = (.ok b, c') → c'.index ≤ c.index) : Chooses p q s (.inl a) c
  | inr {b : β} {c : Cursor} (read : ending (q s) = (.ok b, c))
    (lt : ∀ a c', ending (p s) = (.ok a, c') → c'.index < c.index) : Chooses p q s (.inr b) c

/-- What the longer of two items comes to, and the cursor that it leaves: the item that is meant and
its end, or, where neither is possible, the error that lies further on, the first one on a tie, with
the cursor put back. -/
inductive ComesToLonger (p : Parser α) (q : Parser β) (s : ParserState) :
    Except ParseError (α ⊕ β) × Cursor → Prop
  | chosen {x : α ⊕ β} {c : Cursor} (chosen : Chooses p q s x c) :
    ComesToLonger p q s (.ok x, c)
  | neither {e e' : ParseError} {s₁ s₂ : ParserState} (first : p s = .error e s₁)
    (second : q s = .error e' s₂) : ComesToLonger p q s
      (.error (if e.position.offset < e'.position.offset then e' else e), s.cursor)

/-- An item and the states before and behind it. -/
structure Occurrence (α : Type) where
  before : ParserState
  item : α
  after : ParserState

namespace Occurrence

/-- The states around the item. -/
def span (r : Occurrence α) : ParserState × ParserState := (r.before, r.after)

/-- The occurrence as one of an item of another type. -/
def map (f : α → β) (r : Occurrence α) : Occurrence β := ⟨r.before, f r.item, r.after⟩

end Occurrence

/-- The second state is behind a separator at the first one: a comma, with a line break if one
follows it, or a line break. -/
inductive ParserState.BehindSeparator (s : ParserState) : ParserState → Prop
  | comma (h : s.cursor.current.token = .punctuator .comma) :
    s.BehindSeparator { s with cursor := s.cursor.advance.pastBreak }
  | newline (h : s.cursor.current.token = .newline) :
    s.BehindSeparator { s with cursor := s.cursor.advance }

/-- What is read behind an item, up to the last state: further items, each of them behind a
separator, and perhaps a separator in front of what closes the list. No separator is left that could
be followed by an item. -/
inductive GoesOn : ParserState → List (ParserState × ParserState) → ParserState → Prop
  | stop {s : ParserState} (comma : s.cursor.current.token ≠ .punctuator .comma)
    (newline : s.cursor.current.token ≠ .newline) : GoesOn s [] s
  | close {s s' : ParserState} (separator : s.BehindSeparator s')
    (closes : s'.cursor.current.token.closesList) : GoesOn s [] s'
  | item {s before after s' : ParserState} {spans : List (ParserState × ParserState)}
    (separator : s.BehindSeparator before)
    (forward : before.cursor.index < after.cursor.index) (rest : GoesOn after spans s') :
    GoesOn s ((before, after) :: spans) s'

/-- The items are all that is read between the two states, apart from separators. The states around
each of them are given, in the order of the source. -/
inductive InOrder : ParserState → List (ParserState × ParserState) → ParserState → Prop
  | empty {s : ParserState} (closes : s.cursor.current.token.closesList) : InOrder s [] s
  | items {s after s' : ParserState} {spans : List (ParserState × ParserState)}
    (forward : s.cursor.index < after.cursor.index) (rest : GoesOn after spans s') :
    InOrder s ((s, after) :: spans) s'

/-- Each of the items is read from its state as an item behind the one before it, the first one as
an item behind `last`. -/
def ReadEach (R : ParserState → Prop) (item : Option α → Parser α) :
    (last : Option α) → List (Occurrence α) → Prop
  | _, [] => True
  | last, r :: rs =>
    R r.before ∧ item last r.before = .ok r.item r.after ∧ ReadEach R item (some r.item) rs

/-! ### Moves of the cursor -/

namespace CursorMoves

theorem among (ts : List PlacedToken) : CursorMoves (ParserState.Among ts) where
  advance hs := hs.on.advance.among hs.faithful
  reset hs hs' := ⟨hs.rest, hs.index_lt, hs'.faithful⟩
  length_eq hs hs' := hs.length_rest.trans hs'.length_rest.symm

theorem pastBreak (hR : CursorMoves R) (hs : R s) : R { s with cursor := s.cursor.pastBreak } := by
  unfold Cursor.pastBreak
  split
  · exact hR.advance hs
  · exact hs

theorem behindSeparator (hR : CursorMoves R) (hs : R s) (h : s.BehindSeparator s') : R s' := by
  cases h with
  | comma h => exact hR.pastBreak (hR.advance hs)
  | newline h => exact hR.advance hs

/-- A cursor that has moved on has fewer tokens ahead. -/
theorem length_lt (hR : CursorMoves R) (hs : R s) (hs' : R s')
    (h : s.cursor.index < s'.cursor.index) : s'.cursor.rest.length < s.cursor.rest.length := by
  have := hR.length_eq hs hs'
  omega

end CursorMoves

theorem Cursor.le_advance (c : Cursor) : c.index ≤ c.advance.index := by
  unfold Cursor.advance
  split
  · split
    · exact Nat.le_refl _
    · exact Nat.le_succ _
  · exact Nat.le_refl _

theorem Cursor.le_pastBreak (c : Cursor) : c.index ≤ c.pastBreak.index := by
  unfold Cursor.pastBreak
  split
  · exact c.le_advance
  · exact Nat.le_refl _

theorem ParserState.BehindSeparator.index_le (h : s.BehindSeparator s') :
    s.cursor.index ≤ s'.cursor.index := by
  cases h with
  | comma h => exact Nat.le_trans s.cursor.le_advance s.cursor.advance.le_pastBreak
  | newline h => exact s.cursor.le_advance

/-! ### The longer of two items -/

theorem ending_eq_ok {r : EStateM.Result ParseError ParserState α} {a : α} {c : Cursor} :
    ending r = (.ok a, c) ↔ ∃ s, r = .ok a s ∧ s.cursor = c := by
  cases r with
  | ok a' s => simp [ending]
  | error e s => simp [ending]

theorem exists_error_of_ending {r r' : EStateM.Result ParseError ParserState α} {e : ParseError}
    (h : ending r = ending r') (hr : r = .error e s) : ∃ s', r' = .error e s' := by
  subst hr
  cases r' with
  | ok a s' => cases h
  | error e' s' =>
    cases (Prod.mk.inj h).1
    exact ⟨s', rfl⟩

/-- An item that is chosen is one that can be read. -/
theorem Chooses.exists_ok {x : α ⊕ β} {c : Cursor} (h : Chooses p q s x c) :
    (∃ a s', p s = .ok a s') ∨ ∃ b s', q s = .ok b s' := by
  cases h with
  | inl read =>
    obtain ⟨s', hrun, -⟩ := ending_eq_ok.1 read
    exact .inl ⟨_, s', hrun⟩
  | inr read =>
    obtain ⟨s', hrun, -⟩ := ending_eq_ok.1 read
    exact .inr ⟨_, s', hrun⟩

namespace Proceeds

variable (hp : Proceeds R p)

include hp

theorem stays_of_ok {a : α} (hs : R s) (h : p s = .ok a s') : R s' := by
  have hstays := hp.stays hs
  rwa [h] at hstays

theorem stays_of_error {e : ParseError} (hs : R s) (h : p s = .error e s') : R s' := by
  have hstays := hp.stays hs
  rwa [h] at hstays

end Proceeds

namespace ReadsItem

variable (hR : CursorMoves R) (hp : ReadsItem R p) (hq : ReadsItem R q)

include hR hp hq

/-- What both phrases come to from a state decides what the longer one comes to from there. -/
theorem comesToLonger (hs : R s) : ComesToLonger p q s (ending (longer p q s)) := by
  -- the second phrase begins at the same cursor, with what the first one left remembered
  have hsecond {s₁ : ParserState} (hs₁ : R s₁) :
      ending (q { s₁ with cursor := s.cursor }) = ending (q s) :=
    hq.ending_eq hs (hR.reset hs hs₁) rfl
  rw [longer_run]
  cases hfirst : p s with
  | ok a s₁ =>
    have hsame := hsecond (hp.stays_of_ok hs hfirst)
    have hread : ending (p s) = (.ok a, s₁.cursor) := by rw [hfirst]; rfl
    simp only
    cases hrun : q { s₁ with cursor := s.cursor } with
    -- both are possible: the index decides
    | ok b s₂ =>
      rw [hrun] at hsame
      have hread' : ending (q s) = (.ok b, s₂.cursor) := hsame.symm
      simp only
      split
      · refine .chosen (.inr hread' fun a' c' h => ?_)
        rw [hread] at h
        cases h
        assumption
      · refine .chosen (.inl hread fun b' c' h => ?_)
        rw [hread'] at h
        cases h
        exact Nat.not_lt.1 ‹_›
    | error e s₂ =>
      rw [hrun] at hsame
      refine .chosen (.inl hread fun b c' h => ?_)
      rw [← hsame] at h
      cases h
  | error e s₁ =>
    have hsame := hsecond (hp.stays_of_error hs hfirst)
    simp only
    cases hrun : q { s₁ with cursor := s.cursor } with
    | ok b s₂ =>
      rw [hrun] at hsame
      refine .chosen (.inr hsame.symm fun a c' h => ?_)
      rw [hfirst] at h
      cases h
    | error e' s₂ =>
      obtain ⟨s₃, hsecond'⟩ := exists_error_of_ending hsame hrun
      exact .neither hfirst hsecond'

theorem chooses_of_longer (hs : R s) {x : α ⊕ β} (h : longer p q s = .ok x s') :
    Chooses p q s x s'.cursor := by
  have hlonger := comesToLonger hR hp hq hs
  rw [h] at hlonger
  cases hlonger with
  | chosen hchosen => exact hchosen

/-- The longer of two items is possible where one of them is. -/
theorem longer_ok_iff (hs : R s) :
    (∃ x s', longer p q s = .ok x s') ↔ (∃ a s', p s = .ok a s') ∨ ∃ b s', q s = .ok b s' := by
  have hlonger := comesToLonger hR hp hq hs
  constructor
  · rintro ⟨x, s', hrun⟩
    exact (chooses_of_longer hR hp hq hs hrun).exists_ok
  · intro hone
    cases hrun : longer p q s with
    | ok x s' => exact ⟨x, s', rfl⟩
    | error e s' =>
      rw [hrun, ending] at hlonger
      generalize s'.cursor = c at hlonger
      -- neither is possible then
      cases hlonger with
      | neither hfirst hsecond =>
        rcases hone with ⟨a, s₁, hp'⟩ | ⟨b, s₁, hq'⟩
        · rw [hfirst] at hp'
          cases hp'
        · rw [hsecond] at hq'
          cases hq'

theorem proceeds_longer : Proceeds R (longer p q) where
  stays {s} hs := by
    rw [longer_run]
    cases hfirst : p s with
    | ok a s₁ =>
      have hs₁ := hp.stays_of_ok hs hfirst
      have hback := hR.reset hs hs₁
      simp only
      cases hrun : q { s₁ with cursor := s.cursor } with
      | ok b s₂ =>
        have hs₂ := hq.stays_of_ok hback hrun
        simp only
        split
        · exact hs₂
        · exact hR.reset hs₁ hs₂
      | error e s₂ => exact hR.reset hs₁ (hq.stays_of_error hback hrun)
    | error e s₁ =>
      have hback := hR.reset hs (hp.stays_of_error hs hfirst)
      simp only
      cases hrun : q { s₁ with cursor := s.cursor } with
      | ok b s₂ => exact hq.stays_of_ok hback hrun
      | error e' s₂ => exact hR.reset hs (hq.stays_of_error hback hrun)
  forward {s x s'} hs h := by
    cases chooses_of_longer hR hp hq hs h with
    | inl read le =>
      obtain ⟨s₁, hrun, hcursor⟩ := ending_eq_ok.1 read
      exact hcursor ▸ hp.forward hs hrun
    | inr read lt =>
      obtain ⟨s₁, hrun, hcursor⟩ := ending_eq_ok.1 read
      exact hcursor ▸ hq.forward hs hrun

omit hR hp in
theorem proceeds_second : Proceeds R (do return (.inr (← q)) : Parser (α ⊕ β)) where
  stays {s} hs := by
    simp only [Bind.bind, EStateM.bind]
    cases hrun : q s with
    | ok b s₁ => exact hq.stays_of_ok hs hrun
    | error e s₁ => exact hq.stays_of_error hs hrun
  forward {s x s'} hs h := by
    obtain ⟨b, s₁, hrun, hpure⟩ := bind_eq_ok h
    cases hpure
    exact hq.forward hs hrun

/-- Whichever kinds of item are possible, reading one proceeds. -/
theorem proceeds_eitherItem (last : Option (α ⊕ β)) : Proceeds R (eitherItem p q last) :=
  match last with
  | some (.inr _) => hq.proceeds_second
  | some (.inl _) | none => proceeds_longer hR hp hq

end ReadsItem

/-! ### Lists -/

section Lists

variable {item : Option α → Parser α}

/-- A line break does not close a list, so what closes it is behind the line break. -/
theorem Cursor.closes_behind_break {c : Cursor} (hbreak : c.current.token = .newline)
    (h : c.following.closesList) : c.advance.current.token.closesList := by
  obtain ⟨index, rest⟩ := c
  match rest with
  | [] => cases hbreak
  | [t] =>
    have ht : t.token = .newline := hbreak
    simp [Cursor.following, Cursor.current, ht, Token.closesList] at h
  | t :: t' :: rest =>
    have ht : t.token = .newline := hbreak
    have hadvance : Cursor.advance ⟨index, t :: t' :: rest⟩ = ⟨index + 1, t' :: rest⟩ :=
      if_neg (by simp [ht])
    rw [hadvance]
    exact h

/-- What a list reads behind its first item. Each item takes a token, so the rounds do not run out
as long as there are as many of them as tokens. -/
theorem occurrences_listFrom (hR : CursorMoves R) (hitem : ∀ last, Proceeds R (item last))
    (hs : R s) {rounds : Nat} (hrounds : s.cursor.rest.length ≤ rounds)
    {separator : Option Separator} {last : α} {l : ItemList α}
    (h : listFrom item rounds separator last s = .ok l s') :
    ∃ rs : List (Occurrence α), l.items = last :: rs.map (·.item) ∧
      GoesOn s (rs.map Occurrence.span) s' ∧ ReadEach R item (some last) rs := by
  induction rounds generalizing s separator last l with
  | zero =>
    -- no token is ahead
    have hnone : s.cursor.rest = [] := List.length_eq_zero_iff.1 (Nat.le_zero.1 hrounds)
    have hend : s.cursor.current.token = .endOfInput := by rw [Cursor.current, hnone]
    cases h
    exact ⟨[], rfl, .stop (by rw [hend]; decide) (by rw [hend]; decide), trivial⟩
  | succ rounds ih =>
    -- one more item behind a separator
    have hmore {separator : Option Separator} {before : ParserState}
        (hbefore : s.BehindSeparator before) (h : (do
          let next ← item (some last)
          return (← listFrom item rounds separator next).cons last : Parser (ItemList α)) before =
            .ok l s') :
        ∃ rs : List (Occurrence α), l.items = last :: rs.map (·.item) ∧
          GoesOn s (rs.map Occurrence.span) s' ∧ ReadEach R item (some last) rs := by
      have hbefore' := hR.behindSeparator hs hbefore
      obtain ⟨next, after, hnext, h⟩ := bind_eq_ok h
      obtain ⟨l', s₂, hrest, h⟩ := bind_eq_ok h
      cases h
      have hafter := (hitem (some last)).stays_of_ok hbefore' hnext
      have hforward := (hitem (some last)).forward hbefore' hnext
      have hfewer := hR.length_lt hs hafter (Nat.lt_of_le_of_lt hbefore.index_le hforward)
      obtain ⟨rs, hitems, hgoes, heach⟩ := ih hafter (by omega) hrest
      refine ⟨⟨before, next, after⟩ :: rs, ?_, ?_, hbefore', hnext, heach⟩
      · simp only [ItemList.cons, hitems, List.map_cons]
      · exact .item hbefore hforward hgoes
    unfold listFrom at h
    rw [bind_of_ok (isAt_run _ s)] at h
    by_cases hcomma : s.cursor.current.token = .punctuator .comma
    · rw [beq_iff_eq.2 hcomma, if_pos rfl] at h
      split at h
      · cases h
      obtain ⟨found, hbreak⟩ := eat_newline_run { s with cursor := s.cursor.advance }
      rw [discard_bind, bind_of_ok (rfl : advance s = .ok s.cursor.current _), discard_bind,
        bind_of_ok hbreak, bind_of_ok (rfl : peek _ = .ok _ _)] at h
      split at h
      · cases h
        exact ⟨[], rfl, .close (.comma hcomma) ‹_›, trivial⟩
      · exact hmore (.comma hcomma) h
    rw [beq_false_of_ne hcomma, if_neg Bool.false_ne_true, bind_of_ok (isAt_run _ s)] at h
    by_cases hnewline : s.cursor.current.token = .newline
    · rw [beq_iff_eq.2 hnewline, if_pos rfl] at h
      rw [bind_of_ok (rfl : peekFollowing s = .ok s.cursor.following s)] at h
      split at h
      · rw [discard_bind, bind_of_ok (rfl : advance s = .ok s.cursor.current _)] at h
        cases h
        have hcloses := Cursor.closes_behind_break hnewline ‹_›
        exact ⟨[], rfl, .close (.newline hnewline) hcloses, trivial⟩
      split at h
      · cases h
      split at h
      · cases h
      · rw [discard_bind, bind_of_ok (rfl : advance s = .ok s.cursor.current _)] at h
        exact hmore (.newline hnewline) h
    · rw [beq_false_of_ne hnewline, if_neg Bool.false_ne_true] at h
      cases h
      exact ⟨[], rfl, .stop hcomma hnewline, trivial⟩

/-- **A list reads its items one after the other**, each of them as an item behind the one before
it. -/
theorem occurrences_listWith (hR : CursorMoves R) (hitem : ∀ last, Proceeds R (item last))
    (hs : R s) {rounds : Nat} (hrounds : s.cursor.rest.length ≤ rounds) {l : ItemList α}
    (h : listWith rounds item s = .ok l s') :
    ∃ rs : List (Occurrence α), l.items = rs.map (·.item) ∧
      InOrder { s with cursor := s.cursor.pastBreak } (rs.map Occurrence.span) s' ∧
      ReadEach R item none rs := by
  obtain ⟨found, hbreak⟩ := eat_newline_run s
  have hs₁ := hR.pastBreak hs
  unfold listWith at h
  rw [discard_bind, bind_of_ok hbreak, bind_of_ok (rfl : peek _ = .ok _ _)] at h
  split at h
  · cases h
    exact ⟨[], rfl, .empty ‹_›, trivial⟩
  · obtain ⟨first, after, hfirst, hrest⟩ := bind_eq_ok h
    have hafter := (hitem none).stays_of_ok hs₁ hfirst
    have hforward := (hitem none).forward hs₁ hfirst
    have hfewer := hR.length_lt hs hafter (Nat.lt_of_le_of_lt s.cursor.le_pastBreak hforward)
    obtain ⟨rs, hitems, hgoes, heach⟩ := occurrences_listFrom hR hitem hafter (by omega) hrest
    refine ⟨⟨_, first, after⟩ :: rs, hitems, ?_, hs₁, hfirst, heach⟩
    exact .items hforward hgoes

end Lists

/-! ### Lists of two kinds -/

section TwoKinds

variable {rs : List (Occurrence (α ⊕ β))}

theorem separate_append (as : List α) (bs : List β) :
    separate (as.map Sum.inl ++ bs.map Sum.inr) = (as, bs) := by
  induction as with
  | nil =>
    induction bs with
    | nil => rfl
    | cons b bs ih =>
      simp only [List.map_nil, List.nil_append, List.map_cons, separate] at ih ⊢
      rw [ih]
  | cons a as ih =>
    simp only [List.map_cons, List.cons_append, separate]
    rw [ih]

/-- Behind an item of the second kind only that kind is read. -/
theorem ReadEach.seconds {b : β} (h : ReadEach R (eitherItem p q) (some (.inr b)) rs) :
    ∃ bs : List (Occurrence β), rs = bs.map (Occurrence.map .inr) ∧
      ∀ r ∈ bs, q r.before = .ok r.item r.after := by
  induction rs generalizing b with
  | nil => exact ⟨[], rfl, by simp⟩
  | cons r rs ih =>
    obtain ⟨-, hrun, heach⟩ := h
    obtain ⟨b', after, hq, hpure⟩ := bind_eq_ok hrun
    obtain ⟨before, item, after'⟩ := r
    cases hpure
    obtain ⟨bs, rfl, hbs⟩ := ih heach
    exact ⟨⟨before, b', after'⟩ :: bs, rfl, List.forall_mem_cons.2 ⟨hq, hbs⟩⟩

/-- The items that are chosen, up to the first one of the second kind, and those behind it. -/
theorem ReadEach.choices (hR : CursorMoves R) (hp : ReadsItem R p) (hq : ReadsItem R q)
    {last : Option (α ⊕ β)} (hlast : ∀ b, last ≠ some (.inr b))
    (h : ReadEach R (eitherItem p q) last rs) :
    ∃ (as : List (Occurrence α)) (bs : List (Occurrence β)),
      rs = as.map (Occurrence.map .inl) ++ bs.map (Occurrence.map .inr) ∧
      (∀ r ∈ as, Chooses p q r.before (.inl r.item) r.after.cursor) ∧
      (∀ r ∈ bs.head?, Chooses p q r.before (.inr r.item) r.after.cursor) ∧
      ∀ r ∈ bs.tail, q r.before = .ok r.item r.after := by
  induction rs generalizing last with
  | nil => exact ⟨[], [], rfl, by simp, by simp, by simp⟩
  | cons r rs ih =>
    obtain ⟨hbefore, hrun, heach⟩ := h
    have hitem : eitherItem p q last = Parser.longer p q := by
      match last with
      | some (.inr b) => exact absurd rfl (hlast b)
      | some (.inl _) | none => rfl
    rw [hitem] at hrun
    have hchosen := ReadsItem.chooses_of_longer hR hp hq hbefore hrun
    obtain ⟨before, x, after⟩ := r
    cases x with
    | inl a =>
      obtain ⟨as, bs, rfl, has, hfirst, hbs⟩ := ih (by simp) heach
      exact ⟨⟨before, a, after⟩ :: as, bs, rfl, List.forall_mem_cons.2 ⟨hchosen, has⟩, hfirst, hbs⟩
    | inr b =>
      obtain ⟨bs, rfl, hbs⟩ := heach.seconds
      exact ⟨[], ⟨before, b, after⟩ :: bs, rfl, by simp, by simpa using hchosen, hbs⟩

end TwoKinds

/-- **The longest match is taken and not gone back on.** Let a parser be set on any of some states
among which its cursor moves, and let `p` and `q` read items there. The longer of the two comes to
what the one comes to that ends further on, the first one on a tie, and leaves the cursor at its
end; it fails where both do, with the error that lies further on, and puts the cursor back. So a
list of the two kinds that is read, with as many rounds as tokens ahead, gives items of the first
kind and items of the second kind which stand in this order, with nothing but separators between
them, and which are all that the separators lead to. Those of the first kind and the
first one of the second kind are chosen from both; those behind it are read by `q` alone. -/
theorem ReadsItem.longest_match (hR : CursorMoves R) (hp : ReadsItem R p) (hq : ReadsItem R q)
    (hs : R s) :
    ((∃ x s', Parser.longer p q s = .ok x s') ↔
      (∃ a s', p s = .ok a s') ∨ ∃ b s', q s = .ok b s') ∧
    ComesToLonger p q s (ending (Parser.longer p q s)) ∧
    ∀ rounds, s.cursor.rest.length ≤ rounds → ∀ lists s', twoKindList rounds p q s = .ok lists s' →
      ∃ (as : List (Occurrence α)) (bs : List (Occurrence β)),
        lists = (as.map (·.item), bs.map (·.item)) ∧
        InOrder { s with cursor := s.cursor.pastBreak }
          (as.map Occurrence.span ++ bs.map Occurrence.span) s' ∧
        (∀ r ∈ as, Chooses p q r.before (.inl r.item) r.after.cursor) ∧
        (∀ r ∈ bs.head?, Chooses p q r.before (.inr r.item) r.after.cursor) ∧
        ∀ r ∈ bs.tail, q r.before = .ok r.item r.after := by
  refine ⟨longer_ok_iff hR hp hq hs, comesToLonger hR hp hq hs, fun rounds hrounds lists s' h => ?_⟩
  obtain ⟨l, s₁, hlist, hpure⟩ := bind_eq_ok h
  cases hpure
  obtain ⟨rs, hitems, horder, heach⟩ :=
    occurrences_listWith hR (proceeds_eitherItem hR hp hq) hs hrounds hlist
  obtain ⟨as, bs, rfl, has, hfirst, hbs⟩ := heach.choices hR hp hq (by simp)
  refine ⟨as, bs, ?_, ?_, has, hfirst, hbs⟩
  · have hitems' : l.items = (as.map (·.item)).map .inl ++ (bs.map (·.item)).map .inr := by
      rw [hitems, List.map_append, List.map_map, List.map_map, List.map_map, List.map_map]
      rfl
    rw [hitems', separate_append]
  · rw [List.map_append, List.map_map, List.map_map] at horder
    exact horder

/-! ### Items of the grammar -/

/-- A phrase that takes a token, wherever among its tokens a parser is set, is an item there. -/
theorem ReadsItem.of_takes {ts : List PlacedToken}
    (h : ∀ (s : ParserState) (hs : s.Among ts), ∃ p' : Parser α,
      Takes (.onwards ts s.cursor.index hs.index_lt) s.cursor.rest.length p p') :
    ReadsItem (ParserState.Among ts) p := by
  have honward {s : ParserState} (hs : s.Among ts) : Onward ts s 1 (p s) := by
    obtain ⟨p', hp⟩ := h s hs
    have hpos := hs.on.length_pos
    have hagree := hp (s.cursor.rest.length - 1) (by omega)
    rw [Nat.sub_add_cancel hpos] at hagree
    exact hs.onward hagree (by omega)
  refine ⟨⟨fun {s} hs => ?_, fun {s a s'} hs hrun => ?_⟩, fun {s s'} hs hs' hcursor => ?_⟩
  · have hrun := honward hs
    generalize p s = r at hrun
    cases hrun with
    | ok a among => exact among
    | error e among => exact among
  · have hmoved := honward hs
    rw [hrun] at hmoved
    cases hmoved with
    | ok _ _ index_le => exact index_le
  · -- what is remembered does not show in the other run either
    obtain ⟨p', hp⟩ := h s hs
    have halike := hp.weak s.cursor s.brackets ∅ hs.on (Nat.le_refl _) hs.faithful
    have halike' := hp.weak s.cursor s'.brackets ∅ hs.on (Nat.le_refl _) hs'.faithful
    obtain ⟨c', b'⟩ := s'
    obtain rfl : c' = s.cursor := hcursor
    exact halike'.ending_eq.trans halike.ending_eq.symm

variable {ts : List PlacedToken} {depth : Nat}

/-- Expressions and named arguments, which calls hold, are items. -/
theorem readsItem_arguments (floor : Inner) (hdepth : (closeTokens ts).length ≤ depth) :
    ReadsItem (ParserState.Among ts) (floor.nest depth).expression ∧
      ReadsItem (ParserState.Among ts) (keywordArgument (floor.nest depth)) := by
  have hdeep {s : ParserState} (hs : s.Among ts) : s.cursor.rest.length ≤ depth := by
    have hlength := hs.length_rest
    omega
  exact ⟨.of_takes fun s hs => ⟨_, (hs.agree_nest floor (hdeep hs)).expression⟩,
    .of_takes fun s hs => ⟨_, takes_keywordArgument (hs.agree_nest floor (hdeep hs))⟩⟩

/-- In `a, b: c, d: e)` the name `b` is an expression too, but longer with what follows it; `d` is
read without looking whether it is an expression. The list ends at the bracket. -/
theorem ReadsItem.longest_match_named :
    let g := (Inner.none true).nest 11
    ∃ (s s' : ParserState) (as : List (Occurrence Node)) (bs : List (Occurrence KeywordArgument)),
      s.cursor.rest.map (·.token) = [.identifier "a", .punctuator .comma, .identifier "b",
        .punctuator .colon, .identifier "c", .punctuator .comma, .identifier "d",
        .punctuator .colon, .identifier "e", .punctuator .rightParen, .endOfInput] ∧
      twoKindList 11 g.expression (keywordArgument g) s =
        .ok (as.map (·.item), bs.map (·.item)) s' ∧
      s'.cursor.current.token = .punctuator .rightParen ∧
      (as.map (·.item.position), bs.map (·.item.name)) = ([⟨1, 1, 0⟩], ["b", "d"]) ∧
      InOrder { s with cursor := s.cursor.pastBreak }
        (as.map Occurrence.span ++ bs.map Occurrence.span) s' ∧
      (∀ r ∈ as, Chooses g.expression (keywordArgument g) r.before (.inl r.item) r.after.cursor) ∧
      (∀ r ∈ bs.head?,
        Chooses g.expression (keywordArgument g) r.before (.inr r.item) r.after.cursor) ∧
      ∀ r ∈ bs.tail, keywordArgument g r.before = .ok r.item r.after := by
  intro g
  let ts : List PlacedToken := ([.identifier "a", .punctuator .comma, .identifier "b",
    .punctuator .colon, .identifier "c", .punctuator .comma, .identifier "d", .punctuator .colon,
    .identifier "e", .punctuator .rightParen] : List Token).map fun t => ⟨t, .start⟩
  have hdepth : (closeTokens ts).length ≤ 11 := by decide
  obtain ⟨hp, hq⟩ := readsItem_arguments (.none true) hdepth
  obtain ⟨-, -, hlists⟩ := ReadsItem.longest_match (.among ts) hp hq (.ofTokens ts)
  let list := twoKindList 11 g.expression (keywordArgument g) (.ofTokens ts)
  have hread : (ending list).1.toOption.map
        (fun lists => (lists.1.map (·.position), lists.2.map (·.name))) =
      some ([⟨1, 1, 0⟩], ["b", "d"]) ∧
      (ending list).2.current.token = .punctuator .rightParen := by decide +kernel
  cases hrun : twoKindList 11 g.expression (keywordArgument g) (.ofTokens ts) with
  | error e s' =>
    rw [show list = _ from hrun] at hread
    cases hread.1
  | ok lists s' =>
    obtain ⟨as, bs, rfl, horder, has, hfirst, hbs⟩ := hlists 11 hdepth lists s' hrun
    rw [show list = _ from hrun] at hread
    have hnames := Option.some.inj hread.1
    simp only [List.map_map] at hnames
    exact ⟨.ofTokens ts, s', as, bs, rfl, hrun, hread.2, hnames, horder, has, hfirst, hbs⟩

end DrakeSyntax
