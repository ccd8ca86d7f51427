import DrakeSyntax.Proofs.Cells.Mirror
import DrakeSyntax.Proofs.Cutting.Gap

/-!
# Gaps of characters as gaps of cells

The scanner skips a gap by loops that look one character ahead for the end of a comment; on cells it
is a machine that remembers a `*`. Both skip the same (`Scan.mirrors_gap`).
-/

namespace DrakeSyntax

variable {s : Source} {firstBreak : Option Position} {start : Position}

namespace Gap

/-- What a scan has come to from `s` is what the gap of cells says. -/
inductive Skipped (s : Source) : Gap → EStateM.Result LexError Source (Option Position) → Prop
  | ok {b s'} (follows : s'.Follows s) : Skipped s ⟨b, none, s'.asCells.cells⟩ (.ok b s')
  | error {b start s'} (follows : s'.Follows s) :
      Skipped s ⟨b, some start, s'.asCells.cells⟩ (.error ⟨.unterminatedComment, start⟩ s')

theorem Skipped.of_follows {s₁ : Source} {g : Gap}
    {r : EStateM.Result LexError Source (Option Position)} (h : Skipped s₁ g r)
    (hs : s₁.Follows s) : Skipped s g r := by
  cases h with
  | ok follows => exact .ok (follows.trans hs)
  | error follows => exact .error (follows.trans hs)

/-- A star closes nothing in front of another character than a slash. -/
theorem skip_star {cells : List Cell} (h : ∀ c ∈ cells.head?, c.char ≠ '/') :
    skip (.blockComment start true) firstBreak cells =
      skip (.blockComment start false) firstBreak cells := by
  cases cells with
  | nil => rfl
  | cons c cs =>
    have hc : (c.char == '/') = false := beq_false_of_ne (h c rfl)
    rw [skip, skip, hc]
    rfl

/-- A line comment is skipped up to its line break. -/
theorem skip_skipLine (s : Source) (firstBreak : Option Position) :
    skip .lineComment firstBreak s.asCells.cells =
        skip .plain firstBreak s.skipLine.asCells.cells ∧ s.skipLine.Follows s := by
  fun_induction Source.skipLine s with
  | case1 s hend =>
    rw [Source.asCells_of_atEnd hend]
    exact ⟨rfl, .refl s⟩
  | case2 s hend hbreak =>
    refine ⟨?_, .refl s⟩
    rw [Source.asCells_consumeLineBreak hend hbreak, CellSource.cons, skip_break_cell _ _ rfl,
      skip_break_cell _ _ rfl]
    rfl
  | case3 s hend hline ih =>
    have hline := breaksLine_of_not_isLineBreak hline
    refine ⟨?_, ih.2.trans (Source.follows_advance hend hline)⟩
    rw [Source.asCells_advance hend hline, CellSource.cons,
      skip_line (Cell.not_isBreak hline), ih.1]

/-- What follows a block comment is skipped behind it; one that does not end leaves nothing. -/
theorem skip_skipBlock (start : Position) (firstBreak : Option Position) (s : Source) :
    match Scan.skipBlock start firstBreak s with
    | .ok b s' => skip (.blockComment start false) firstBreak s.asCells.cells =
        skip .plain b s'.asCells.cells ∧ s'.Follows s
    | .error e s' => Skipped s (skip (.blockComment start false) firstBreak s.asCells.cells)
        (.error e s') := by
  fun_induction Scan.skipBlock start firstBreak s with
  | case1 firstBreak s hend =>
    have hcells := Source.asCells_of_atEnd hend
    have hskip : skip (.blockComment start false) firstBreak s.asCells.cells =
        ⟨firstBreak, some start, s.asCells.cells⟩ := by
      rw [hcells]
      rfl
    rw [hskip]
    exact .error (.refl s)
  | case2 firstBreak s hend hclose =>
    obtain ⟨hstar, hnext⟩ := Bool.and_eq_true_iff.1 hclose
    have hstar : s.peek = '*' := beq_iff_eq.1 hstar
    have hline : breaksLine s.peek = false := by rw [hstar]; rfl
    obtain ⟨hcells, hfollows⟩ :=
      Source.asCells_advance_advance hend hline (beq_iff_eq.1 hnext) rfl
    rw [hcells, hstar]
    exact ⟨rfl, hfollows⟩
  | case3 firstBreak s hend _ hbreak ih =>
    have hskip : skip (.blockComment start false) firstBreak s.asCells.cells =
        skip (.blockComment start false) (firstBreak <|> some s.position)
          s.consumeLineBreak.asCells.cells := by
      rw [Source.asCells_consumeLineBreak hend hbreak, CellSource.cons, skip_break_cell _ _ rfl]
      rfl
    have hfollows := Source.follows_consumeLineBreak hend hbreak
    rw [hskip]
    split at ih
    · exact ⟨ih.1, ih.2.trans hfollows⟩
    · exact ih.of_follows hfollows
  | case4 firstBreak s hend hclose hline ih =>
    have hline := breaksLine_of_not_isLineBreak hline
    have hskip : skip (.blockComment start false) firstBreak s.asCells.cells =
        skip (.blockComment start false) firstBreak s.advance.asCells.cells := by
      rw [Source.asCells_advance hend hline, CellSource.cons,
        skip_block (Cell.not_isBreak hline) (by simp)]
      -- a star that does not close the comment is forgotten
      cases hstar : s.peek == '*' with
      | false => rfl
      | true =>
        rw [hstar, Bool.true_and, beq_iff_eq] at hclose
        exact skip_star (Source.head_asCells (P := (· ≠ '/')) (by decide)
          (Source.peek_advance_ne hend hclose))
    have hfollows := Source.follows_advance hend hline
    rw [hskip]
    split at ih
    · exact ⟨ih.1, ih.2.trans hfollows⟩
    · exact ih.of_follows hfollows

/-- A block comment is opened by two characters. -/
theorem skip_opening (hend : ¬ s.atEnd) (hblank : ¬ isBlank s.peek) (hbreak : ¬ isLineBreak s.peek)
    (hopen : (s.peek == '/' && s.peekNext? == some '*') = true) :
    skip .plain firstBreak s.asCells.cells =
        skip (.blockComment s.position false) firstBreak s.advance.advance.asCells.cells ∧
      s.advance.advance.Follows s := by
  obtain ⟨hslash, hnext⟩ := Bool.and_eq_true_iff.1 hopen
  have hline := breaksLine_of_not_isLineBreak hbreak
  obtain ⟨hcells, hfollows⟩ :=
    Source.asCells_advance_advance hend hline (beq_iff_eq.1 hnext) rfl
  refine ⟨?_, hfollows⟩
  have hne : ¬ '*' = '/' := by decide
  rw [hcells, CellSource.cons, CellSource.cons, skip_slash_star hblank (Cell.not_isBreak hline)
    (beq_iff_eq.1 hslash) hne rfl]

/-- **A gap is skipped cell by cell.** -/
theorem skipped_skipGap (firstBreak : Option Position) (s : Source) :
    Skipped s (skip .plain firstBreak s.asCells.cells) (Scan.skipGap firstBreak s) := by
  fun_induction Scan.skipGap firstBreak s with
  | case1 firstBreak s hend =>
    have hcells := Source.asCells_of_atEnd hend
    have hskip : skip .plain firstBreak s.asCells.cells =
        ⟨firstBreak, none, s.asCells.cells⟩ := by
      rw [hcells]
      rfl
    rw [hskip]
    exact .ok (.refl s)
  | case2 firstBreak s hend hblank ih =>
    obtain ⟨-, hline⟩ := Source.inLine_of_peek (q := isBlank) rfl rfl rfl hblank
    rw [Source.asCells_advance hend hline, CellSource.cons, skip_blank hblank]
    exact ih.of_follows (Source.follows_advance hend hline)
  | case3 firstBreak s hend _ hbreak ih =>
    rw [Source.asCells_consumeLineBreak hend hbreak, CellSource.cons, skip_break_cell _ _ rfl]
    exact ih.of_follows (Source.follows_consumeLineBreak hend hbreak)
  | case4 firstBreak s hend hblank hbreak hopen ih =>
    obtain ⟨hslash, hnext⟩ := Bool.and_eq_true_iff.1 hopen
    have hline := breaksLine_of_not_isLineBreak hbreak
    have hcells := (Source.asCells_advance_advance hend hline (beq_iff_eq.1 hnext) rfl).1
    -- the scanner skips the two slashes with the line, the machine in front of it
    have hskip : skip .plain firstBreak s.asCells.cells =
        skip .plain firstBreak s.skipLine.asCells.cells := by
      have hbehind := (skip_skipLine s firstBreak).1
      rw [← hbehind, hcells, CellSource.cons, CellSource.cons,
        skip_slash_slash hblank (Cell.not_isBreak hline) (beq_iff_eq.1 hslash) rfl,
        skip_line (Cell.not_isBreak hline), skip_line (Cell.not_isBreak rfl)]
    rw [hskip]
    exact ih.of_follows (skip_skipLine s firstBreak).2
  | case5 firstBreak s hend hblank hbreak _ hopen b s' hblock ih =>
    obtain ⟨hskip, hfollows⟩ := skip_opening hend hblank hbreak hopen
    have hbehind := skip_skipBlock s.position firstBreak s.advance.advance
    rw [hblock] at hbehind
    rw [hskip, hbehind.1]
    exact ih.of_follows (hbehind.2.trans hfollows)
  | case6 firstBreak s hend hblank hbreak _ hopen e s' hblock =>
    obtain ⟨hskip, hfollows⟩ := skip_opening hend hblank hbreak hopen
    have hbehind := skip_skipBlock s.position firstBreak s.advance.advance
    rw [hblock] at hbehind
    rw [hskip]
    exact hbehind.of_follows hfollows
  | case7 firstBreak s hend hblank hbreak hline hblock =>
    have hclear : Clear s.asCells.cells := by
      rw [Source.asCells_advance hend (breaksLine_of_not_isLineBreak hbreak)]
      refine ⟨Bool.eq_false_iff.2 hblank, Bool.eq_false_iff.2 (Cell.not_isBreak
        (breaksLine_of_not_isLineBreak hbreak)), fun hslash => ?_⟩
      have hslash : s.peek = '/' := hslash
      have hnext (d : Char) (h : ¬ (s.peek == '/' && s.peekNext? == some d) = true) :
          s.peekNext? ≠ some d := fun hd => h (by rw [hslash, hd]; simp)
      exact Source.head_asCells (P := fun d => d ≠ '/' ∧ d ≠ '*') (by decide) fun hmore =>
        ⟨Source.peek_advance_ne hend (hnext '/' hline) hmore,
          Source.peek_advance_ne hend (hnext '*' hblock) hmore⟩
    rw [hclear.skip]
    exact .ok (.refl s)

end Gap

namespace Scan

/-- **A gap is scanned as a gap of cells.** -/
theorem mirrors_gap : Mirrors id gap CellScan.gap := by
  intro s
  have hskipped : Gap.Skipped s (Gap.leading s.asCells.cells) (gap s) :=
    Gap.skipped_skipGap none s
  unfold MirrorsAt
  rw [CellScan.gap_run]
  generalize Gap.leading s.asCells.cells = g at hskipped
  generalize gap s = r at hskipped
  -- the cells that are left end where those of the source do
  have hleft {s' : Source} (h : s'.Follows s) :
      s'.asCells = ⟨s'.asCells.cells, s.asCells.finish⟩ := by
    rw [← h.finish]
  cases hskipped with
  | ok follows => exact .ok rfl (hleft follows) follows
  | error follows => exact .error (hleft follows) follows

end Scan

end DrakeSyntax
