import DrakeSyntax.Proofs.Cutting
import DrakeSyntax.Proofs.Place.Scan

/-!
# Cutting a gap

What is skipped of a gap does not depend on what stands behind it, except that a `/` may begin a
comment. `Gap.Passes state w b state'` says of some cells that skipping them leads from one state
to another whatever follows; `Gap.Clear` says of cells that no gap is at their front.

* `Gap.crosses`: a gap is passed up to the end or up to clear cells.
* `Gap.Opens`: a comment that does not end begins behind cells that are passed.
-/

namespace DrakeSyntax.Gap

/-- There is no gap at the front of the cells. -/
def Clear : List Cell → Prop
  | [] => True
  | c :: cs => isBlank c.char = false ∧ c.isBreak = false ∧
      (c.char = '/' → ∀ d ∈ cs.head?, d.char ≠ '/' ∧ d.char ≠ '*')

/-- Skipping `w` leads from one state to another whatever stands behind it; `b` is the first
break in it. -/
def Passes (state : GapState) (w : List Cell) (b : Option Position) (state' : GapState) : Prop :=
  ∀ firstBreak more, skip state firstBreak (w ++ more) = skip state' (firstBreak <|> b) more

variable {state state' : GapState} {firstBreak b : Option Position} {c d : Cell}
  {cells cs ds more w : List Cell} {start : Position} {star : Bool}

/-! ### Where there is no gap -/

theorem Clear.skip (h : Clear cells) (firstBreak : Option Position) :
    skip .plain firstBreak cells = ⟨firstBreak, none, cells⟩ := by
  cases cells with
  | nil => rfl
  | cons c cs =>
    obtain ⟨hblank, hbreak, hslash⟩ := h
    rw [Gap.skip.eq_def]
    simp only [hblank, hbreak, Bool.false_eq_true, if_false]
    split
    · next hc =>
      cases cs with
      | nil => rfl
      | cons d ds =>
        obtain ⟨hline, hblock⟩ := hslash hc d rfl
        simp only [if_neg hline, if_neg hblock]
    · rfl

/-- What is cut off cannot begin a comment. -/
theorem Clear.of_append (h : Clear (cells ++ more)) : Clear cells := by
  cases cells with
  | nil => trivial
  | cons c cs =>
    obtain ⟨hblank, hbreak, hslash⟩ := h
    refine ⟨hblank, hbreak, fun hc d hd => hslash hc d ?_⟩
    cases cs with
    | nil => cases hd
    | cons e es => exact hd

/-- A line break does not make a comment of a `/` in front of it. -/
theorem Clear.append (h : Clear (c :: cs)) (hmore : ∃ d ∈ more.head?, d.isBreak) :
    Clear (c :: cs ++ more) := by
  obtain ⟨hblank, hbreak, hslash⟩ := h
  refine ⟨hblank, hbreak, fun hc d hd => ?_⟩
  cases cs with
  | nil =>
    obtain ⟨e, he, hbreak⟩ := hmore
    obtain rfl : e = d := Option.some.inj (he.symm.trans hd)
    have hchar : e.char = '\n' := by simpa [Cell.isBreak] using hbreak
    rw [hchar]
    decide
  | cons e es => exact hslash hc d hd

/-! ### What is passed -/

namespace Passes

theorem refl (state : GapState) : Passes state [] none state := by
  intro firstBreak more
  cases firstBreak <;> rfl

/-- A cell in front that changes the state. -/
theorem cons {state₁ : GapState} (h : Passes state₁ w b state')
    (hc : ∀ firstBreak more, skip state firstBreak (c :: more) = skip state₁ firstBreak more) :
    Passes state (c :: w) b state' := by
  intro firstBreak more
  rw [List.cons_append, hc, h]

/-- A line break in front is the first one. -/
theorem cons_break (state : GapState) (h : Passes state.newline w b state') (hc : c.isBreak) :
    Passes state (c :: w) (some c.position) state' := by
  intro firstBreak more
  rw [List.cons_append, skip_break_cell _ _ hc, h]
  cases firstBreak <;> rfl

/-- Two cells in front that open a comment. -/
theorem cons_cons {state₁ : GapState} (h : Passes state₁ w b state')
    (hc : ∀ firstBreak more, skip state firstBreak (c :: d :: more) = skip state₁ firstBreak more) :
    Passes state (c :: d :: w) b state' := by
  intro firstBreak more
  rw [List.cons_append, List.cons_append, hc, h]

/-- What is passed in front of clear cells is the gap there. -/
theorem leading (h : Passes .plain w b .plain) (hmore : Clear more) :
    Gap.leading (w ++ more) = ⟨b, none, more⟩ := by
  rw [Gap.leading, h, hmore.skip]
  rfl

/-- What is passed up to the end, outside of block comments, is the gap there. -/
theorem leading_end (h : Passes .plain w b state') (hplain : state'.newline = .plain) :
    Gap.leading w = ⟨b, none, []⟩ := by
  have hskip := h none []
  rw [List.append_nil] at hskip
  rw [Gap.leading, hskip]
  cases state' with
  | plain | lineComment => rfl
  | blockComment => cases hplain

/-- If what is passed ends inside a block comment, that is left open. -/
theorem leading_open (h : Passes .plain w b (.blockComment start star)) :
    (Gap.leading w).openComment = some start := by
  have hskip := h none []
  rw [List.append_nil] at hskip
  rw [Gap.leading, hskip]
  rfl

end Passes

theorem skip_blank (hblank : isBlank c.char) (firstBreak : Option Position) (more : List Cell) :
    skip .plain firstBreak (c :: more) = skip .plain firstBreak more := by
  rw [skip.eq_def]
  exact if_pos hblank

theorem skip_slash_slash (hblank : ¬ isBlank c.char) (hbreak : ¬ c.isBreak) (hc : c.char = '/')
    (hd : d.char = '/') (firstBreak : Option Position) (more : List Cell) :
    skip .plain firstBreak (c :: d :: more) = skip .lineComment firstBreak more := by
  rw [skip.eq_def]
  simp only [if_neg hblank, if_neg hbreak, if_pos hc, if_pos hd]

theorem skip_slash_star (hblank : ¬ isBlank c.char) (hbreak : ¬ c.isBreak) (hc : c.char = '/')
    (hd' : ¬ d.char = '/') (hd : d.char = '*') (firstBreak : Option Position)
    (more : List Cell) :
    skip .plain firstBreak (c :: d :: more) =
      skip (.blockComment c.position false) firstBreak more := by
  rw [skip.eq_def]
  simp only [if_neg hblank, if_neg hbreak, if_pos hc, if_neg hd', if_pos hd]

theorem skip_line (hbreak : ¬ c.isBreak) (firstBreak : Option Position) (more : List Cell) :
    skip .lineComment firstBreak (c :: more) = skip .lineComment firstBreak more := by
  rw [skip, if_neg hbreak]

theorem skip_close (hbreak : ¬ c.isBreak) (hclose : (star && c.char == '/') = true)
    (firstBreak : Option Position) (more : List Cell) :
    skip (.blockComment start star) firstBreak (c :: more) = skip .plain firstBreak more := by
  rw [skip, if_neg hbreak, if_pos hclose]

theorem skip_block (hbreak : ¬ c.isBreak) (hclose : ¬ (star && c.char == '/') = true)
    (firstBreak : Option Position) (more : List Cell) :
    skip (.blockComment start star) firstBreak (c :: more) =
      skip (.blockComment start (c.char == '*')) firstBreak more := by
  rw [skip, if_neg hbreak, if_neg hclose]

/-! ### Gaps and comments that do not end -/

/-- The cells do not close a comment; `star` tells whether a `*` stands in front of them. -/
def Unclosed (star : Bool) (cells : List Cell) : Prop :=
  ¬ ['*', '/'] <:+: (if star then '*' :: cells.map Cell.char else cells.map Cell.char)

theorem unclosed_nil (star : Bool) : Unclosed star [] := by
  cases star with
  | false => simp [Unclosed]
  | true => simp [Unclosed, GapState.closes_cons]

theorem Unclosed.cons {star : Bool} (h : Unclosed (c.char == '*') cells)
    (hclose : ¬ (star && c.char == '/') = true) : Unclosed star (c :: cells) := by
  have hbehind : ¬ ['*', '/'] <:+: c.char :: cells.map Cell.char := by
    by_cases hstar : c.char = '*'
    · rw [hstar] at h ⊢
      exact h
    · rw [Unclosed, beq_false_of_ne hstar] at h
      rw [GapState.closes_cons, not_or]
      exact ⟨fun h => hstar h.1, h⟩
  cases star with
  | false => exact hbehind
  | true =>
    change ¬ ['*', '/'] <:+: '*' :: c.char :: cells.map Cell.char
    rw [GapState.closes_cons, not_or]
    refine ⟨?_, hbehind⟩
    rintro ⟨-, rest, hrest⟩
    obtain ⟨hslash, -⟩ := List.cons.inj hrest
    exact hclose (by simp [hslash])

theorem Unclosed.cons_break {star : Bool} (h : Unclosed false cells) (hbreak : c.isBreak) :
    Unclosed star (c :: cells) := by
  have hchar : c.char = '\n' := by simpa [Cell.isBreak] using hbreak
  refine Unclosed.cons ?_ (by simp [hchar])
  rw [hchar]
  exact h

/-- The comment that began at `start` is open: it is the one that is being skipped, or it begins
behind cells that are passed. -/
def Opens (state : GapState) (cells : List Cell) (start : Position) : Prop :=
  (∃ star, state = .blockComment start star ∧ Unclosed star cells) ∨
    ∃ pre b c d ds, cells = pre ++ c :: d :: ds ∧ c.position = start ∧ c.char = '/' ∧
      d.char = '*' ∧ Passes state pre b .plain ∧ Unclosed false ds

/-- How a gap is crossed. -/
inductive Crosses (state : GapState) : List Cell → Prop
  /-- It ends in front of clear cells. -/
  | clear {gone rest : List Cell} {b : Option Position} (passes : Passes state gone b .plain)
      (more : rest ≠ []) (clear : Clear rest) : Crosses state (gone ++ rest)
  /-- It ends with the source, outside of block comments. -/
  | finished {cells : List Cell} {b : Option Position} {state' : GapState}
      (passes : Passes state cells b state') (plain : state'.newline = .plain) :
      Crosses state cells
  /-- The source ends inside a block comment. -/
  | opened {cells : List Cell} {b : Option Position} {start : Position} {star : Bool}
      (passes : Passes state cells b (.blockComment start star))
      (opens : Opens state cells start) : Crosses state cells

namespace Crosses

/-- Cells in front are passed. If a comment is being skipped behind them, it is open in front of
them too. -/
theorem front {state₁ : GapState} (front : List Cell) (f : Option Position → Option Position)
    (h : Crosses state₁ cells)
    (hfront : ∀ {w b state'}, Passes state₁ w b state' → Passes state (front ++ w) (f b) state')
    (hskipped : ∀ start star, state₁ = .blockComment start star → Unclosed star cells →
      Opens state (front ++ cells) start) : Crosses state (front ++ cells) := by
  cases h with
  | clear hpasses hmore hclear =>
    rw [← List.append_assoc]
    exact .clear (hfront hpasses) hmore hclear
  | finished hpasses hplain => exact .finished (hfront hpasses) hplain
  | opened hpasses hopens =>
    refine .opened (hfront hpasses) ?_
    rcases hopens with ⟨star, hstate, hopen⟩ | ⟨pre, b, c, d, ds, rfl, hc, hslash, hstar, hpre, hopen⟩
    · exact hskipped _ star hstate hopen
    · exact .inr ⟨front ++ pre, f b, c, d, ds, (List.append_assoc ..).symm, hc, hslash, hstar,
        hfront hpre, hopen⟩

/-- No comment is being skipped behind the cells in front. -/
theorem frontOutside {state₁ : GapState} (front : List Cell)
    (f : Option Position → Option Position) (h : Crosses state₁ cells)
    (hplain : state₁.newline = .plain)
    (hfront : ∀ {w b state'}, Passes state₁ w b state' → Passes state (front ++ w) (f b) state') :
    Crosses state (front ++ cells) := by
  refine h.front front f hfront fun start star hstate => ?_
  rw [hstate] at hplain
  cases hplain

end Crosses

/-- **A gap is passed up to the end or up to clear cells**, and a comment that does not end begins
behind cells that are passed. -/
theorem crosses (state : GapState) (cells : List Cell) : Crosses state cells := by
  have hclear {c : Cell} {cs : List Cell} (h : Clear (c :: cs)) : Crosses .plain (c :: cs) :=
    .clear (.refl .plain) (List.cons_ne_nil c cs) h
  -- which break was the first one does not matter
  have hcrosses (firstBreak : Option Position) : Crosses state cells := by
    fun_induction skip state firstBreak cells with
    | case1 => exact .finished (.refl .plain) rfl
    | case2 firstBreak c cs hblank ih =>
      exact ih.frontOutside [c] id rfl fun h => h.cons (skip_blank hblank)
    | case3 firstBreak c cs hblank hbreak ih =>
      exact ih.frontOutside [c] (fun _ => some c.position) rfl fun h => h.cons_break .plain hbreak
    | case4 firstBreak c hblank hbreak hslash =>
      exact hclear ⟨by simpa using hblank, by simpa using hbreak, fun _ d hd => by cases hd⟩
    | case5 firstBreak c hblank hbreak hslash d ds hd ih =>
      exact ih.frontOutside [c, d] id rfl
        fun h => h.cons_cons (skip_slash_slash hblank hbreak hslash hd)
    | case6 firstBreak c hblank hbreak hslash d ds hd' hd ih =>
      refine ih.front [c, d] id
        (fun h => h.cons_cons (skip_slash_star hblank hbreak hslash hd' hd)) ?_
      intro start star hstate hopen
      cases hstate
      exact .inr ⟨[], none, c, d, ds, rfl, rfl, hslash, hd, .refl .plain, hopen⟩
    | case7 firstBreak c hblank hbreak hslash d ds hline hblock =>
      refine hclear ⟨by simpa using hblank, by simpa using hbreak, fun _ e he => ?_⟩
      cases he
      exact ⟨hline, hblock⟩
    | case8 firstBreak c cs hblank hbreak hslash =>
      exact hclear ⟨by simpa using hblank, by simpa using hbreak, fun h => absurd h hslash⟩
    | case9 => exact .finished (.refl .lineComment) rfl
    | case10 firstBreak c cs hbreak ih =>
      exact ih.frontOutside [c] (fun _ => some c.position) rfl
        fun h => h.cons_break .lineComment hbreak
    | case11 firstBreak c cs hbreak ih =>
      exact ih.frontOutside [c] id rfl fun h => h.cons (skip_line hbreak)
    | case12 start star => exact .opened (.refl _) (.inl ⟨star, rfl, unclosed_nil star⟩)
    | case13 start star firstBreak c cs hbreak ih =>
      refine ih.front [c] (fun _ => some c.position)
        (fun h => h.cons_break (.blockComment ..) hbreak) ?_
      intro start' star' hstate hopen
      cases hstate
      exact .inl ⟨star, rfl, Unclosed.cons_break hopen hbreak⟩
    | case14 start star firstBreak c cs hbreak hclose ih =>
      exact ih.frontOutside [c] id rfl fun h => h.cons (skip_close hbreak hclose)
    | case15 start star firstBreak c cs hbreak hclose ih =>
      refine ih.front [c] id (fun h => h.cons (skip_block hbreak hclose)) ?_
      intro start' star' hstate hopen
      cases hstate
      exact .inl ⟨star, rfl, hopen.cons hclose⟩
  exact hcrosses none

end DrakeSyntax.Gap
