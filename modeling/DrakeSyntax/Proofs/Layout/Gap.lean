import DrakeSyntax.Proofs.Layout

/-!
# What a gap skips

A gap is skipped cell by cell, and the cells do not show how a line break is written. Here it is
read off the text: what is skipped is `Trivia`, and the place that the gap remembers is that of
the first line break (`Gap.crossed_skip`). The `\r` and the `\n` of one break may be taken one by
one for that, since the second one changes nothing (`Gap.skip_break`).
-/

namespace DrakeSyntax

namespace CellSource

/-- The source is what is left of a text: `k`, whose first character has the offset `offset`. -/
def Shows (s : CellSource) (offset : Nat) (k : List Char) : Prop :=
  ∃ p : Position, p.offset = offset ∧ s = ofChars p k

theorem ofChars_cons {c : Char} (hc : breaksLine c = false) (p : Position) (k : List Char) :
    ofChars p (c :: k) = cons ⟨c, p⟩ (ofChars (p.step c) k) := by
  obtain ⟨hn, hr⟩ : c ≠ '\n' ∧ c ≠ '\r' := by simpa [breaksLine] using hc
  rw [ofChars]
  · rintro k rfl
    exact absurd rfl hr
  · exact hr
  · exact hn

/-- A line break is one cell; the `\n` of a `\r\n` may be left for another one. -/
theorem ofChars_break {c : Char} (hc : breaksLine c) (p : Position) (k : List Char) :
    ∃ q : Position, q.offset = p.offset + c.utf8Size ∧
      (ofChars p (c :: k) = cons ⟨'\n', p⟩ (ofChars q k) ∨
        ∃ s, ofChars p (c :: k) = cons ⟨'\n', p⟩ s ∧ ofChars q k = cons ⟨'\n', q⟩ s) := by
  obtain rfl | rfl : c = '\n' ∨ c = '\r' := by simpa [breaksLine] using hc
  · exact ⟨p.nextLine 1, rfl, .inl rfl⟩
  · by_cases hk : ∃ k', k = '\n' :: k'
    · obtain ⟨k', rfl⟩ := hk
      exact ⟨⟨p.line, 1, p.offset + 1⟩, rfl, .inr ⟨_, rfl, rfl⟩⟩
    · refine ⟨p.nextLine 1, rfl, .inl ?_⟩
      rw [ofChars]
      rintro k' rfl
      exact hk ⟨k', rfl⟩

/-- A first cell that breaks no line is the first character. -/
theorem eq_cons_of_ofChars {p : Position} {k : List Char} {c : Cell} {cs : List Cell}
    (h : (ofChars p k).cells = c :: cs) (hc : c.isBreak = false) :
    ∃ k', k = c.char :: k' ∧ breaksLine c.char = false ∧ cs = (ofChars (p.step c.char) k').cells := by
  cases k with
  | nil => cases h
  | cons d k =>
    cases hd : breaksLine d with
    | true =>
      obtain ⟨q, -, hcells | ⟨s, hcells, -⟩⟩ := ofChars_break hd p k
      all_goals
        rw [hcells] at h
        cases h
        cases hc
    | false =>
      rw [ofChars_cons hd] at h
      cases h
      exact ⟨k, rfl, hd, rfl⟩

theorem position_ofChars (p : Position) (k : List Char) : (ofChars p k).position = p := by
  cases k with
  | nil => rfl
  | cons c k =>
    cases hc : breaksLine c with
    | true =>
      obtain ⟨q, -, hcells | ⟨s, hcells, -⟩⟩ := ofChars_break hc p k
      all_goals
        rw [hcells]
        rfl
    | false =>
      rw [ofChars_cons hc]
      rfl

namespace Shows

variable {s : CellSource} {offset : Nat} {k : List Char}

theorem position_offset (h : s.Shows offset k) : s.position.offset = offset := by
  obtain ⟨p, rfl, rfl⟩ := h
  rw [position_ofChars]

/-- Only an empty text has no cells. -/
theorem eq_nil (h : s.Shows offset k) (hcells : s.cells = []) : k = [] := by
  obtain ⟨p, rfl, rfl⟩ := h
  cases k with
  | nil => rfl
  | cons c k =>
    cases hc : breaksLine c with
    | true =>
      obtain ⟨q, -, hbreak | ⟨s, hbreak, -⟩⟩ := ofChars_break hc p k
      all_goals
        rw [hbreak] at hcells
        cases hcells
    | false =>
      rw [ofChars_cons hc] at hcells
      cases hcells

/-- Cells of one line stand for their characters. -/
theorem drop {taken rest : List Cell} (h : s.Shows offset k) (hcells : s.cells = taken ++ rest)
    (hline : Unbroken taken) : ∃ k', k = taken.map Cell.char ++ k' ∧
      '\r' ∉ taken.map Cell.char ∧
      Shows ⟨rest, s.finish⟩ (offset + byteLength (taken.map Cell.char)) k' := by
  induction taken generalizing s offset k with
  | nil =>
    obtain ⟨p, rfl, rfl⟩ := h
    exact ⟨k, rfl, List.not_mem_nil, p, rfl, by rw [← List.nil_append rest, ← hcells]⟩
  | cons c taken ih =>
    obtain ⟨p, rfl, rfl⟩ := h
    obtain ⟨hc, hline⟩ := List.forall_mem_cons.1 hline
    obtain ⟨k, rfl, hchar, htail⟩ := eq_cons_of_ofChars hcells hc
    obtain ⟨k', rfl, hr, hshows⟩ := ih ⟨p.step c.char, rfl, rfl⟩ htail.symm hline
    refine ⟨k', rfl, ?_, ?_⟩
    · have hne : '\r' ≠ c.char := fun h => by
        rw [← h] at hchar
        cases hchar
      rw [List.map_cons, List.mem_cons, not_or]
      exact ⟨hne, hr⟩
    rw [ofChars_cons hchar, List.map_cons, byteLength_cons, ← Nat.add_assoc]
    exact hshows

end Shows

end CellSource

/-- The state behind a line break. -/
def GapState.newline : GapState → GapState
  | plain | lineComment => plain
  | blockComment start _ => blockComment start false

/-- In the given state, `w` may be skipped: it is what is left of a comment, and trivia. -/
def GapState.Spells : GapState → (closed : Bool) → List Char → Prop
  | plain, closed, w => Trivia closed w
  | lineComment, closed, w =>
    (∃ body c w', w = body ++ c :: w' ∧ (∀ d ∈ body, breaksLine d = false) ∧ breaksLine c ∧
      Trivia closed w') ∨ (closed = false ∧ ∀ d ∈ w, breaksLine d = false)
  | blockComment _ star, closed, w =>
    ∃ body w', (if star then '*' :: w else w) = body ++ '*' :: '/' :: w' ∧
      ¬ ['*', '/'] <:+: body ∧ Trivia closed w'

namespace Gap

theorem skip_break_cell (state : GapState) (firstBreak : Option Position) {c : Cell}
    (hc : c.isBreak) (cs : List Cell) :
    skip state firstBreak (c :: cs) = skip state.newline (firstBreak <|> some c.position) cs := by
  have hchar : c.char = '\n' := by simpa [Cell.isBreak] using hc
  cases state with
  | plain =>
    have hblank : ¬ isBlank c.char := by
      rw [hchar]
      decide
    rw [skip.eq_def]
    simp only [if_neg hblank, if_pos hc]
    rfl
  | lineComment =>
    rw [skip, if_pos hc]
    rfl
  | blockComment start star =>
    rw [skip, if_pos hc]
    rfl

/-- Skipping takes a character that breaks the line and remembers its place. -/
theorem skip_break (state : GapState) (firstBreak : Option Position) {c : Char} (hc : breaksLine c)
    (p : Position) (k : List Char) :
    ∃ q : Position, q.offset = p.offset + c.utf8Size ∧
      (CellSource.ofChars p (c :: k)).finish = (CellSource.ofChars q k).finish ∧
      skip state firstBreak (CellSource.ofChars p (c :: k)).cells =
        skip state.newline (firstBreak <|> some p) (CellSource.ofChars q k).cells := by
  obtain ⟨q, hq, hcells | ⟨s, hcells, hcells'⟩⟩ := CellSource.ofChars_break hc p k
  · refine ⟨q, hq, ?_, ?_⟩
    · rw [hcells]
      rfl
    · rw [hcells]
      exact skip_break_cell state firstBreak rfl _
  · refine ⟨q, hq, ?_, ?_⟩
    · rw [hcells, hcells']
      rfl
    · -- the break has been remembered when its second character comes
      have hstate : state.newline.newline = state.newline := by cases state <;> rfl
      have hbreak : ((firstBreak <|> some p) <|> some q) = (firstBreak <|> some p) := by
        cases firstBreak <;> rfl
      rw [hcells, hcells', CellSource.cons, CellSource.cons, skip_break_cell _ _ rfl,
        skip_break_cell _ _ rfl, hstate, hbreak]

end Gap

namespace GapState

variable {closed : Bool} {c : Char} {w : List Char}

theorem trivia_of_line (h : lineComment.Spells closed w) : Trivia closed ('/' :: '/' :: w) := by
  rcases h with ⟨body, c, w', rfl, hbody, hc, hw⟩ | ⟨rfl, hw⟩
  · exact .lineComment hbody hc hw
  · exact .openComment hw

theorem trivia_of_block {start : Position} (h : (blockComment start false).Spells closed w) :
    Trivia closed ('/' :: '*' :: w) := by
  obtain ⟨body, w', hw, hbody, hw'⟩ := h
  rw [if_neg Bool.false_ne_true] at hw
  subst hw
  exact .blockComment hbody hw'

/-- A line comment goes on with any character of its line. -/
theorem Spells.inLine (h : lineComment.Spells closed w) (hc : breaksLine c = false) :
    lineComment.Spells closed (c :: w) := by
  rcases h with ⟨body, d, w', rfl, hbody, hd, hw⟩ | ⟨rfl, hw⟩
  · exact .inl ⟨c :: body, d, w', rfl, List.forall_mem_cons.2 ⟨hc, hbody⟩, hd, hw⟩
  · exact .inr ⟨rfl, List.forall_mem_cons.2 ⟨hc, hw⟩⟩

/-- A body closes the comment with its first two characters or behind the first one. -/
theorem closes_cons {body : List Char} : ['*', '/'] <:+: c :: body ↔
    (c = '*' ∧ ∃ rest, body = '/' :: rest) ∨ ['*', '/'] <:+: body := by
  rw [List.infix_cons_iff, List.cons_prefix_cons]
  refine or_congr_left (and_congr eq_comm ?_)
  constructor
  · rintro ⟨rest, hrest⟩
    exact ⟨rest, hrest.symm⟩
  · rintro ⟨rest, rfl⟩
    exact ⟨rest, rfl⟩

/-- A block comment goes on with any character that does not close it. -/
theorem Spells.inBlock {start : Position} {star : Bool}
    (h : (blockComment start (c == '*')).Spells closed w) (hc : ¬ (star ∧ c = '/')) :
    (blockComment start star).Spells closed (c :: w) := by
  obtain ⟨body, w', hw, hbody, hw'⟩ := h
  by_cases hstar : c = '*'
  · -- the star belongs to the body or closes the comment
    subst hstar
    cases star with
    | false => exact ⟨body, w', hw, hbody, hw'⟩
    | true =>
      refine ⟨'*' :: body, w', congrArg ('*' :: ·) hw, ?_, hw'⟩
      rw [closes_cons, not_or]
      refine ⟨?_, hbody⟩
      rintro ⟨-, rest, rfl⟩
      cases hw
  · rw [beq_false_of_ne hstar, if_neg Bool.false_ne_true] at hw
    subst hw
    have hcbody : ¬ ['*', '/'] <:+: c :: body := by
      rw [closes_cons, not_or]
      exact ⟨fun h => hstar h.1, hbody⟩
    cases star with
    | false => exact ⟨c :: body, w', rfl, hcbody, hw'⟩
    | true =>
      refine ⟨'*' :: c :: body, w', rfl, ?_, hw'⟩
      rw [closes_cons, not_or]
      refine ⟨?_, hcbody⟩
      rintro ⟨-, rest, hrest⟩
      cases hrest
      exact hc ⟨rfl, rfl⟩

theorem spells_close {start : Position} (h : Trivia closed w) :
    (blockComment start true).Spells closed ('/' :: w) :=
  ⟨[], w, rfl, by simp, h⟩

theorem Spells.cross {state : GapState} (h : state.newline.Spells closed w)
    (hc : breaksLine c) : state.Spells closed (c :: w) := by
  have hne : c ≠ '*' ∧ c ≠ '/' := by
    obtain rfl | rfl : c = '\n' ∨ c = '\r' := by simpa [breaksLine] using hc
    · decide
    · decide
  cases state with
  | plain => exact .lineBreak hc h
  | lineComment => exact .inl ⟨[], c, w, rfl, by simp, hc, h⟩
  | blockComment start star =>
    refine Spells.inBlock ?_ fun hclose => hne.2 hclose.2
    rw [beq_false_of_ne hne.1]
    exact h

end GapState

namespace Gap

variable {G H : Bool → List Char → Prop} {firstBreak : Option Position} {p : Position}
  {c : Char} {k : List Char} {r : Gap}

/-- A gap that begins at `p` in front of the text `k` leaves what stands behind a text in `G`. It
is told of the breaks before, and remembers the first of all. -/
def Crossed (G : (closed : Bool) → List Char → Prop) (firstBreak : Option Position) (p : Position)
    (k : List Char) (r : Gap) : Prop :=
  r.openComment = none → ∃ g k', k = g ++ k' ∧ G (!k'.isEmpty) g ∧
    CellSource.Shows ⟨r.rest, (CellSource.ofChars p k).finish⟩ (p.offset + byteLength g) k' ∧
    r.firstBreak.map Position.offset =
      (firstBreak.map Position.offset <|> breakAt p.offset g)

theorem Crossed.stop (hG : G (!k.isEmpty) []) :
    Crossed G firstBreak p k ⟨firstBreak, none, (CellSource.ofChars p k).cells⟩ := by
  intro _
  refine ⟨[], k, rfl, hG, ⟨p, rfl, rfl⟩, ?_⟩
  cases firstBreak <;> rfl

theorem Crossed.char (h : Crossed G firstBreak (p.step c) k r) (hc : breaksLine c = false)
    (hG : ∀ {closed w}, G closed w → H closed (c :: w)) :
    Crossed H firstBreak p (c :: k) r := by
  intro hopen
  obtain ⟨g, k', rfl, hg, hshows, hbreak⟩ := h hopen
  refine ⟨c :: g, k', rfl, hG hg, ?_, ?_⟩
  · rw [CellSource.ofChars_cons hc, byteLength_cons, ← Nat.add_assoc]
    exact hshows
  · rw [hbreak, breakAt, if_neg (by simp [hc])]
    rfl

theorem Crossed.newline {q : Position} (h : Crossed G (firstBreak <|> some p) q k r)
    (hc : breaksLine c) (hq : q.offset = p.offset + c.utf8Size)
    (hfinish : (CellSource.ofChars p (c :: k)).finish = (CellSource.ofChars q k).finish)
    (hG : ∀ {closed w}, G closed w → H closed (c :: w)) :
    Crossed H firstBreak p (c :: k) r := by
  intro hopen
  obtain ⟨g, k', rfl, hg, hshows, hbreak⟩ := h hopen
  refine ⟨c :: g, k', rfl, hG hg, ?_, ?_⟩
  · rw [hq, Nat.add_assoc, ← byteLength_cons] at hshows
    rw [hfinish]
    exact hshows
  · rw [hbreak, breakAt, if_pos hc]
    cases firstBreak <;> rfl

/-- Two characters open a comment, which goes on in `G`. -/
theorem Crossed.opening {d : Char} (h : Crossed G firstBreak ((p.step '/').step d) k r)
    (hd : breaksLine d = false)
    (hG : ∀ {closed w}, G closed w → Trivia closed ('/' :: d :: w)) :
    Crossed Trivia firstBreak p ('/' :: d :: k) r := by
  have hbehind : Crossed (fun closed w => Trivia closed ('/' :: w)) firstBreak (p.step '/')
      (d :: k) r := h.char hd hG
  exact hbehind.char rfl id

/-- What is skipped between two comments, if that is known of every shorter text. -/
theorem crossed_plain (hc : breaksLine c = false)
    (ih : ∀ state q k', k'.length < (c :: k).length →
      Crossed state.Spells firstBreak q k' (skip state firstBreak (CellSource.ofChars q k').cells)) :
    Crossed Trivia firstBreak p (c :: k)
      (skip .plain firstBreak (CellSource.ofChars p (c :: k)).cells) := by
  have hbreak : ¬ Cell.isBreak ⟨c, p⟩ := by
    rw [Cell.isBreak_of_breaksLine hc]
    exact Bool.false_ne_true
  have hcells : (CellSource.ofChars p (c :: k)).cells =
      ⟨c, p⟩ :: (CellSource.ofChars (p.step c) k).cells := by
    rw [CellSource.ofChars_cons hc]
    rfl
  have hstop : Crossed Trivia firstBreak p (c :: k)
      ⟨firstBreak, none, (CellSource.ofChars p (c :: k)).cells⟩ := Crossed.stop .nil
  rw [hcells] at hstop
  rw [hcells, skip.eq_def]
  simp only [if_neg hbreak]
  split
  · next hblank => exact (ih .plain (p.step c) k (by simp)).char hc (.blank (isBlank_iff.1 hblank))
  split
  · next hslash =>
    subst hslash
    -- the next character tells whether a comment begins
    cases hds : (CellSource.ofChars (p.step '/') k).cells with
    | nil =>
      rw [hds] at hstop
      exact hstop
    | cons d ds =>
      rw [hds] at hstop
      dsimp only
      split
      · next hd =>
        obtain ⟨k', rfl, hline, rfl⟩ := CellSource.eq_cons_of_ofChars hds (by simp [Cell.isBreak, hd])
        have hlt : k'.length < ('/' :: d.char :: k').length := by
          simp only [List.length_cons]
          omega
        rw [hd] at hline ⊢
        exact (ih .lineComment _ k' hlt).opening hline GapState.trivia_of_line
      split
      · next hd =>
        obtain ⟨k', rfl, hline, rfl⟩ := CellSource.eq_cons_of_ofChars hds (by simp [Cell.isBreak, hd])
        have hlt : k'.length < ('/' :: d.char :: k').length := by
          simp only [List.length_cons]
          omega
        rw [hd] at hline ⊢
        exact (ih (.blockComment p false) _ k' hlt).opening hline GapState.trivia_of_block
      · exact hstop
  · exact hstop

/-- **What a gap skips is trivia.** -/
theorem crossed_skip (state : GapState) (firstBreak : Option Position) (p : Position)
    (k : List Char) :
    Crossed state.Spells firstBreak p k
      (skip state firstBreak (CellSource.ofChars p k).cells) := by
  match k with
  | [] =>
    cases state with
    | plain => exact Crossed.stop .nil
    | lineComment => exact Crossed.stop (.inr ⟨rfl, by simp⟩)
    | blockComment start star =>
      intro hopen
      cases hopen
  | c :: k =>
    cases hc : breaksLine c with
    | true =>
      obtain ⟨q, hq, hfinish, hskip⟩ := skip_break state firstBreak hc p k
      rw [hskip]
      exact (crossed_skip state.newline _ q k).newline hc hq hfinish fun h => h.cross hc
    | false =>
      have hbreak : ¬ Cell.isBreak ⟨c, p⟩ := by
        rw [Cell.isBreak_of_breaksLine hc]
        exact Bool.false_ne_true
      have hcells : (CellSource.ofChars p (c :: k)).cells =
          ⟨c, p⟩ :: (CellSource.ofChars (p.step c) k).cells := by
        rw [CellSource.ofChars_cons hc]
        rfl
      cases state with
      | plain => exact crossed_plain hc fun state q k' hk => crossed_skip state firstBreak q k'
      | lineComment =>
        rw [hcells, skip, if_neg hbreak]
        exact (crossed_skip .lineComment firstBreak _ k).char hc fun h => h.inLine hc
      | blockComment start star =>
        rw [hcells, skip, if_neg hbreak]
        split
        · next hclose =>
          obtain ⟨hstar, hslash⟩ := Bool.and_eq_true_iff.1 hclose
          obtain rfl : c = '/' := by simpa using hslash
          subst hstar
          exact (crossed_skip .plain firstBreak _ k).char hc fun h => GapState.spells_close h
        · next hclose =>
          refine (crossed_skip _ firstBreak _ k).char hc fun h => h.inBlock ?_
          simpa using hclose
termination_by k.length
decreasing_by
  all_goals
    simp only [List.length_cons] at *
    omega

/-- Behind a gap there is nothing more to skip. -/
theorem leading_rest {state : GapState} {cells : List Cell}
    (h : (skip state firstBreak cells).openComment = none) :
    leading (skip state firstBreak cells).rest =
      ⟨none, none, (skip state firstBreak cells).rest⟩ := by
  fun_induction skip state firstBreak cells with
  | case1 | case9 => rfl
  | case4 _ c hblank hbreak hslash =>
    rw [leading, skip, if_neg hblank, if_neg hbreak, if_pos hslash]
  | case7 _ c hblank hbreak hslash d ds hd hd' =>
    rw [leading, skip.eq_def]
    simp only [if_neg hblank, if_neg hbreak, if_pos hslash, if_neg hd, if_neg hd']
  | case8 _ c cs hblank hbreak hslash =>
    rw [leading, skip.eq_def]
    simp only [if_neg hblank, if_neg hbreak, if_neg hslash]
  | case12 => cases h
  | case2 _ _ _ _ ih | case3 _ _ _ _ _ ih | case5 _ _ _ _ _ _ _ _ ih
    | case6 _ _ _ _ _ _ _ _ _ ih | case10 _ _ _ _ ih | case11 _ _ _ _ ih
    | case13 _ _ _ _ _ _ ih | case14 _ _ _ _ _ _ _ ih | case15 _ _ _ _ _ _ _ ih => exact ih h

end Gap

end DrakeSyntax
