import DrakeSyntax.Proofs.Cutting.Scan
import DrakeSyntax.Proofs.Cutting.Tokenize
import DrakeSyntax.Proofs.LineBreaks
import DrakeSyntax.Proofs.Place.Calls

/-!
# A text is read line by line

No token goes on behind a line break, and nothing is looked for there; only a block comment holds
line breaks. So a text that is put below another one is read as it is by itself, but at other
positions, and the break between the two is read with the gap that it lies in
(`tokenize_lines`).

* `Position.below`: where a place of the lower text is.
* `withNewline`, `withoutNewline`: what becomes of the line breaks at the seam.
* `CellSource.continues_tokens`: the same of cells, by induction on the lexemes in front of the
  break.
-/

namespace DrakeSyntax

/-- The position of a place of a text that stands below the text `a`. -/
def Position.below (a : List Char) (p : Position) : Position :=
  ⟨p.line + (breakEnds 0 (a ++ ['\n'])).length, p.column, p.offset + byteLength a + 1⟩

/-- The tokens with a line break behind them, at `p` if they do not end with one. -/
def withNewline (us : List PlacedToken) (p : Position) : List PlacedToken :=
  if us.getLast?.map (·.token) = some .newline then us else us ++ [⟨.newline, p⟩]

/-- The tokens without the line break that they may begin with. -/
def withoutNewline : List PlacedToken → List PlacedToken
  | ⟨.newline, _⟩ :: ts => ts
  | ts => ts

variable {brk : Cell} {t : CellSource} {us ts pre : List PlacedToken}
  {r r' r₁ : Except LexError (List PlacedToken)}

theorem withNewline_withNewline (us : List PlacedToken) (p q : Position) :
    withNewline (withNewline us p) q = withNewline us p := by
  by_cases h : us.getLast?.map (·.token) = some .newline
  · simp only [withNewline, if_pos h]
  · simp only [withNewline, if_neg h, List.getLast?_append_cons, List.getLast?_singleton,
      Option.map_some, if_true]

/-- Tokens in front of others change nothing if they do not end with a line break. -/
theorem withNewline_append (hpre : ∃ t ∈ pre.getLast?, t.token ≠ .newline)
    (us : List PlacedToken) (p : Position) :
    withNewline (pre ++ us) p = pre ++ withNewline us p := by
  obtain ⟨t, ht, hne⟩ := hpre
  have hlast : (pre ++ us).getLast?.map (·.token) = some .newline ↔
      us.getLast?.map (·.token) = some .newline := by
    cases us using List.reverseRecOn with
    | nil =>
      rw [List.append_nil, Option.mem_def.1 ht]
      simp [hne]
    | append_singleton us u =>
      rw [← List.append_assoc]
      simp
  unfold withNewline
  simp only [hlast]
  split
  · rfl
  · rw [List.append_assoc]

theorem withoutNewline_of_head (h : ∀ t ∈ ts.head?, t.token ≠ .newline) :
    withoutNewline ts = ts := by
  unfold withoutNewline
  split
  · next p ts => exact absurd rfl (h _ rfl)
  · rfl

theorem withoutNewline_relocate (f : Position → Position) (ts : List PlacedToken) :
    withoutNewline (ts.map (PlacedToken.relocate f)) =
      (withoutNewline ts).map (PlacedToken.relocate f) := by
  cases ts with
  | nil => rfl
  | cons t ts =>
    obtain ⟨token, p⟩ := t
    cases token <;> rfl

/-- What the first line break of a gap was before does not matter otherwise. -/
theorem Gap.exists_skip (cells : List Cell) : ∃ b o rest, Clear rest ∧
    ∀ firstBreak, skip .plain firstBreak cells = ⟨firstBreak <|> b, o, rest⟩ := by
  have hcrosses := crosses .plain cells
  cases hcrosses with
  | @clear gone rest b hpasses _ hclear =>
    exact ⟨b, none, rest, hclear, fun firstBreak => by rw [hpasses, hclear.skip]⟩
  | @finished _ b state' hpasses hplain =>
    refine ⟨b, none, [], trivial, fun firstBreak => ?_⟩
    rw [← List.append_nil cells, hpasses]
    cases state' with
    | plain | lineComment => rfl
    | blockComment => cases hplain
  | @opened _ b start star hpasses _ =>
    refine ⟨b, some start, [], trivial, fun firstBreak => ?_⟩
    rw [← List.append_nil cells, hpasses]
    rfl

namespace CellSource

/-- `r` is what is read in front of a line break, and `r'` what is read if the source `t` stands
behind it. A comment may be closed there. -/
def Continues (t : CellSource) (r r' : Except LexError (List PlacedToken)) : Prop :=
  (∀ e, r = .error e → e.fault ≠ .unterminatedComment ∨ t.cells = [] → r' = .error e) ∧
  ∀ ts, r = .ok ts → ∃ us p, ts = us ++ [⟨.endOfInput, p⟩] ∧
    r' = t.tokens.map (withNewline us p ++ withoutNewline ·)

/-- Tokens are read in front, and the last one is no line break. -/
theorem Continues.front (h : Continues t r r') (hpre : ∃ t ∈ pre.getLast?, t.token ≠ .newline) :
    Continues t (r.map (pre ++ ·)) (r'.map (pre ++ ·)) := by
  obtain ⟨herror, hok⟩ := h
  constructor
  · intro e he hcomment
    cases r with
    | ok ts => cases he
    | error e' =>
      cases he
      rw [herror _ rfl hcomment]
      rfl
  · intro ts hts
    obtain ⟨ts, rfl, rfl⟩ := exists_of_map_eq_ok hts
    obtain ⟨us, p, rfl, rfl⟩ := hok _ rfl
    refine ⟨pre ++ us, p, (List.append_assoc ..).symm, ?_⟩
    simp only [withNewline_append hpre]
    cases t.tokens with
    | error e => rfl
    | ok vs => exact congrArg Except.ok (List.append_assoc ..).symm

/-- The line break may be counted as part of what is in front of `t`. -/
theorem Continues.behind_break {finish : Position} (hr : Continues ⟨[], finish⟩ r r₁)
    (h : Continues t r r') : Continues t r₁ r' := by
  cases r with
  | error e =>
    rw [hr.1 e rfl (.inr rfl)]
    exact ⟨fun _ he => h.1 _ (by rw [← he]), nofun⟩
  | ok ts =>
    obtain ⟨us, p, hts, hr₁⟩ := hr.2 ts rfl
    obtain ⟨us', p', hts', hr'⟩ := h.2 ts rfl
    obtain ⟨rfl, hp⟩ := List.append_inj' (hts.symm.trans hts') rfl
    cases hp
    rw [hr₁]
    refine ⟨nofun, fun vs hvs => ⟨withNewline us p, finish, ?_, ?_⟩⟩
    · cases hvs
      rfl
    · simp only [withNewline_withNewline, hr']

/-- Clear cells do not begin with a line break. -/
theorem withoutNewline_of_clear {cells : List Cell} {finish : Position} (h : Gap.Clear cells)
    (hts : (tokens ⟨cells, finish⟩) = .ok ts) : withoutNewline ts = ts := by
  refine withoutNewline_of_head fun u hu => ?_
  cases cells with
  | nil =>
    cases hts
    cases hu
    nofun
  | cons c cs =>
    rw [tokens_of_clear h] at hts
    split at hts
    · next a s' hrun =>
      obtain ⟨us, -, rfl⟩ := exists_of_map_eq_ok hts
      cases hu
      exact (CellScan.lexeme_token_ne hrun).1
    · cases hts

/-- A gap in front of a line break goes on behind it. -/
theorem continues_gap {cells : List Cell} {b : Option Position} {state : GapState}
    (hpasses : Gap.Passes .plain cells b state) (hplain : state.newline = .plain)
    (hbrk : brk.isBreak) :
    Continues t (tokens ⟨cells, brk.position⟩)
      (tokens (.behind cells (.cons brk t))) := by
  have hshort := tokens_of_gap (s := ⟨cells, brk.position⟩) (hpasses.leading_end hplain)
  obtain ⟨b', o, rest, hclear, hskip⟩ := Gap.exists_skip t.cells
  -- the gap goes on behind the break with the first break of both parts
  obtain ⟨p, hp, hnewline⟩ : ∃ p, (b <|> some brk.position) = some p ∧
      withNewline (newlineAt b) brk.position = [⟨.newline, p⟩] := by
    cases b with
    | none => exact ⟨brk.position, rfl, rfl⟩
    | some p => exact ⟨p, rfl, rfl⟩
  have hover : Gap.leading (CellSource.behind cells (.cons brk t)).cells = ⟨some p, o, rest⟩ := by
    change Gap.skip .plain none (cells ++ brk :: t.cells) = _
    rw [hpasses, Gap.skip_break_cell _ _ hbrk, hplain]
    change Gap.skip .plain (b <|> some brk.position) t.cells = _
    rw [hp, hskip]
    rfl
  have hbelow : Gap.leading t.cells = ⟨b', o, rest⟩ := hskip none
  rw [hshort]
  refine ⟨nofun, fun ts hts => ?_⟩
  cases hts
  refine ⟨newlineAt b, brk.position, rfl, ?_⟩
  cases o with
  | some start =>
    rw [tokens_of_open (congrArg Gap.openComment hover),
      tokens_of_open (congrArg Gap.openComment hbelow)]
    rfl
  | none =>
    rw [tokens_of_gap hover, tokens_of_gap hbelow, hnewline]
    change Except.map _ (tokens ⟨rest, t.finish⟩) = _
    cases hrest : (tokens ⟨rest, t.finish⟩) with
    | error e => rfl
    | ok us =>
      have hseam : withoutNewline (newlineAt b' ++ us) = us := by
        cases b' with
        | none => exact withoutNewline_of_clear hclear hrest
        | some q => rfl
      exact congrArg (fun vs => Except.ok (⟨.newline, p⟩ :: vs)) hseam.symm

/-- A comment that is not closed in front of a line break is not closed at the end either, if the
break is the last cell. -/
theorem continues_open {cells : List Cell} {b : Option Position} {start : Position} {star : Bool}
    (hpasses : Gap.Passes .plain cells b (.blockComment start star)) (hbrk : brk.isBreak) :
    Continues t (tokens ⟨cells, brk.position⟩)
      (tokens (.behind cells (.cons brk t))) := by
  have hshort : (tokens ⟨cells, brk.position⟩) = .error ⟨.unterminatedComment, start⟩ :=
    tokens_of_open hpasses.leading_open
  rw [hshort]
  refine ⟨fun e he hcomment => ?_, nofun⟩
  cases he
  have hend : t.cells = [] := hcomment.resolve_left fun h => h rfl
  refine tokens_of_open ?_
  change (Gap.leading (cells ++ brk :: t.cells)).openComment = _
  rw [hend, Gap.leading, hpasses, Gap.skip_break_cell _ _ hbrk]
  rfl

/-- **What stands below a line break is read by itself.** -/
theorem continues_tokens (hbrk : brk.isBreak) (cells : List Cell) (t : CellSource) :
    Continues t (tokens ⟨cells, brk.position⟩)
      (tokens (.behind cells (.cons brk t))) := by
  have hbreaks : (CellSource.cons brk t).Breaks := ⟨brk, rfl, hbrk⟩
  induction hn : cells.length using Nat.strong_induction_on generalizing cells with
  | _ n ih =>
    subst hn
    have hcrosses := Gap.crosses .plain cells
    cases hcrosses with
    | finished hpasses hplain => exact continues_gap hpasses hplain hbrk
    | opened hpasses => exact continues_open hpasses hbrk
    | @clear gone rest b hpasses hmore hclear =>
      -- the lexeme behind the gap is scanned alike, since no scan goes on behind the break
      obtain ⟨c, cs, rfl⟩ := List.exists_cons_of_ne_nil hmore
      have hclear' : Gap.Clear (c :: (cs ++ brk :: t.cells)) := hclear.append ⟨brk, rfl, hbrk⟩
      have hshort := hpasses.leading hclear
      have hlong : Gap.leading (CellSource.behind (gone ++ c :: cs) (.cons brk t)).cells =
          ⟨b, none, c :: (cs ++ brk :: t.cells)⟩ := by
        rw [CellSource.behind_cells, List.append_assoc]
        exact hpasses.leading hclear'
      have hcut : CellScan.lexeme c.char c.position ⟨c :: (cs ++ brk :: t.cells), t.finish⟩ =
          CellScan.restore (.cons brk t)
            (CellScan.lexeme c.char c.position ⟨c :: cs, brk.position⟩) :=
        CellScan.cutsOffAt_lexeme c cs c.position (.inl hbreaks)
      have hpast := CellScan.past_lexeme c cs brk.position c.position
      cases hrun : CellScan.lexeme c.char c.position ⟨c :: cs, brk.position⟩ with
      | error e s' =>
        rw [hrun] at hcut
        rw [tokens_of_lexeme_error hshort hclear hrun, tokens_of_lexeme_error hlong hclear' hcut]
        exact ⟨fun e he _ => he, nofun⟩
      | ok a s' =>
        rw [hrun] at hcut
        rw [CellScan.left_of_ok hrun] at hpast
        obtain ⟨cells', finish⟩ := s'
        obtain ⟨hfinish, -, hlt⟩ := hpast
        obtain rfl : finish = brk.position := hfinish
        rw [tokens_of_lexeme hshort hclear hrun, tokens_of_lexeme hlong hclear' hcut]
        have hbehind : cells'.length < (gone ++ c :: cs).length := by
          rw [List.length_append]
          exact Nat.lt_of_lt_of_le hlt (Nat.le_add_left ..)
        refine (ih _ hbehind cells' rfl).front ⟨⟨a, c.position⟩, ?_, (CellScan.lexeme_token_ne hrun).1⟩
        simp

end CellSource

/-! ### Texts -/

namespace CellSource

/-- If positions move along with the characters, so does the source of a text. -/
theorem ofChars_relocate {f : Position → Position} (hstep : ∀ p c, f (p.step c) = (f p).step c)
    (hline : ∀ p n, f (p.nextLine n) = (f p).nextLine n) (p : Position) (cs : List Char) :
    ofChars (f p) cs = (ofChars p cs).relocate f := by
  have hcons {p : Position} {c : Char} {s s' : CellSource} (h : s' = s.relocate f) :
      cons ⟨c, f p⟩ s' = (cons ⟨c, p⟩ s).relocate f := by
    rw [h]
    rfl
  fun_induction ofChars p cs with
  | case1 p => rfl
  | case2 p cs ih =>
    rw [hline] at ih
    exact hcons ih
  | case3 p cs hn ih =>
    rw [hline] at ih
    rw [ofChars.eq_3 _ _ hn]
    exact hcons ih
  | case4 p cs ih =>
    rw [hline] at ih
    exact hcons ih
  | case5 p c cs hrn hr hn ih =>
    have hc : breaksLine c = false := by simpa [breaksLine] using ⟨hn, hr⟩
    rw [hstep] at ih
    rw [ofChars_cons hc]
    exact hcons ih

/-- A text below another one is at positions below it. -/
theorem ofChars_below (a : List Char) (p : Position) (cs : List Char) :
    ofChars (p.below a) cs = (ofChars p cs).relocate (Position.below a) := by
  refine ofChars_relocate (fun p c => ?_) (fun p n => ?_) p cs
  · rw [Position.below, Position.step, Position.mk.injEq]
    exact ⟨rfl, rfl, by simp only [Position.below, Position.step]; omega⟩
  · rw [Position.below, Position.nextLine, Position.mk.injEq]
    exact ⟨Nat.add_right_comm .., rfl, by simp only [Position.below, Position.nextLine]; omega⟩

/-- The position below a text that ends with a line break is that of its end. -/
theorem finish_eq_below {a : List Char}
    (h : (ofChars .start (a ++ ['\n'])).finish.column = 1) :
    (ofChars .start (a ++ ['\n'])).finish = Position.start.below a := by
  have hline := finish_line_ofChars .start 0 (a ++ ['\n'])
  have hoffset := finish_offset_ofChars .start (a ++ ['\n'])
  rw [byteLength_append, ← Nat.add_assoc] at hoffset
  calc (ofChars .start (a ++ ['\n'])).finish
      = ⟨(ofChars .start (a ++ ['\n'])).finish.line, (ofChars .start (a ++ ['\n'])).finish.column,
          (ofChars .start (a ++ ['\n'])).finish.offset⟩ := rfl
    _ = Position.start.below a := by
      rw [h, hline, hoffset]
      rfl

/-- The last line break of a text with one more line is a cell of its own, or the one that the text
ends with already. -/
theorem ofChars_line (a : List Char) : ∃ cells brk, Cell.isBreak brk ∧
    ofChars .start (a ++ ['\n']) = ⟨cells ++ [brk], Position.start.below a⟩ ∧
    (ofChars .start a = ⟨cells, brk.position⟩ ∨
      ∃ finish, ofChars .start a = behind cells (.cons brk ⟨[], finish⟩)) := by
  by_cases hlast : a.getLast? = some '\r'
  · obtain ⟨a, rfl⟩ := List.getLast?_eq_some_iff.1 hlast
    -- the `\r` and the `\n` are one break
    have hcut {k : List Char} : ofChars .start (a ++ '\r' :: k) =
        behind (ofChars .start a).cells (ofChars (ofChars .start a).finish ('\r' :: k)) :=
      ofChars_append_of_getLast? (fun _ => by simp) _
    have hline : ofChars .start (a ++ ['\r'] ++ ['\n']) =
        ⟨(ofChars .start a).cells ++ [⟨'\n', (ofChars .start a).finish⟩],
          (ofChars .start a).finish.nextLine 2⟩ := by
      rw [List.append_assoc]
      exact hcut
    have hfinish := finish_eq_below (a := a ++ ['\r']) (by rw [hline]; rfl)
    rw [hline] at hfinish
    refine ⟨_, _, rfl, ?_, .inr ⟨_, hcut⟩⟩
    rw [hline, ← hfinish]
  · have hline : ofChars .start (a ++ ['\n']) =
        ⟨(ofChars .start a).cells ++ [⟨'\n', (ofChars .start a).finish⟩],
          (ofChars .start a).finish.nextLine 1⟩ :=
      ofChars_append_of_getLast? (fun h => absurd h hlast) _
    have hfinish := finish_eq_below (a := a) (by rw [hline]; rfl)
    rw [hline] at hfinish
    refine ⟨(ofChars .start a).cells, ⟨'\n', (ofChars .start a).finish⟩, rfl, ?_, .inl rfl⟩
    rw [hline, ← hfinish]

end CellSource

/-- The tokens of a text, or its error, are at places of it, and their lines and columns fit into 32
bits if the text is shorter than that. -/
theorem tokenize_sound {text : String} (hlength : text.length < UInt32.size - 1) :
    (∀ ts, tokenize text = .ok ts → ∀ t ∈ ts, t.position.Sound text) ∧
      ∀ e, tokenize text = .error e → e.position.Sound text := by
  have hmarks := CellSource.within_ofString text
  have hsound : (CellSource.ofString text).Within (Position.Sound text) :=
    ⟨fun c hc => (hmarks.1 c hc).sound hlength, hmarks.2.sound hlength⟩
  rw [tokenize_eq]
  exact ⟨fun ts hts => CellSource.takeUpTo_within hsound hts,
    fun e he => (CellSource.takeUpTo_fails hsound he).1⟩

/-- **A text is read line by line.** Below a text that cannot be read, the error is the same, unless
it is a comment that does not end. Below a text that can be read, the lower text is read as it is by
itself: its tokens follow those of the upper text, with one line break between them, or its error is
the same, all at positions below the upper text. No line and no column outgrows 32 bits if both
texts together are shorter than that. -/
theorem tokenize_lines (a b : String) :
    (∀ e, tokenize a = .error e → e.fault ≠ .unterminatedComment →
      tokenize (a ++ "\n" ++ b) = .error e) ∧
    (∀ ts, tokenize a = .ok ts → ∃ us p, ts = us ++ [⟨.endOfInput, p⟩] ∧
      tokenize (a ++ "\n" ++ b) =
        ((tokenize b).map fun vs => withNewline us p ++
          (withoutNewline vs).map (PlacedToken.relocate (Position.below a.toList))).mapError
            (LexError.relocate (Position.below a.toList))) ∧
    ((a ++ "\n" ++ b).length < UInt32.size - 1 →
      (∀ ts, tokenize (a ++ "\n" ++ b) = .ok ts →
        ∀ t ∈ ts, t.position.Sound (a ++ "\n" ++ b)) ∧
      ∀ e, tokenize (a ++ "\n" ++ b) = .error e → e.position.Sound (a ++ "\n" ++ b)) := by
  obtain ⟨cells, brk, hbrk, hline, ha⟩ := CellSource.ofChars_line a.toList
  have hjoined : CellSource.ofString (a ++ "\n" ++ b) = .behind cells
      (.cons brk ((CellSource.ofString b).relocate (Position.below a.toList))) := by
    have hcut := CellSource.ofChars_append_of_getLast? (v := a.toList ++ ['\n']) (k := b.toList)
      (by simp) .start
    rw [hline, CellSource.ofChars_below, CellSource.behind_append] at hcut
    rw [CellSource.ofString, String.toList_append, String.toList_append]
    exact hcut
  have hbelow : ((CellSource.ofString b).relocate (Position.below a.toList)).tokens =
      ((tokenize b).map (List.map (PlacedToken.relocate (Position.below a.toList)))).mapError
        (LexError.relocate (Position.below a.toList)) := by
    rw [tokenize_eq, CellSource.tokens, CellSource.tokens, CellSource.takeUpTo_relocate,
      CellSource.relocate_cells, List.length_map]
  have hjoin := CellSource.continues_tokens hbrk cells
    ((CellSource.ofString b).relocate (Position.below a.toList))
  rw [← hjoined, ← tokenize_eq] at hjoin
  have hlines : CellSource.Continues ((CellSource.ofString b).relocate (Position.below a.toList))
      (tokenize a) (tokenize (a ++ "\n" ++ b)) := by
    rcases ha with ha | ⟨finish, ha⟩
    · rw [← ha] at hjoin
      rw [tokenize_eq a]
      exact hjoin
    · have hupper := CellSource.continues_tokens hbrk cells ⟨[], finish⟩
      rw [← ha] at hupper
      rw [tokenize_eq a]
      exact hupper.behind_break hjoin
  refine ⟨fun e he hcomment => hlines.1 e he (.inl hcomment), fun ts hts => ?_, tokenize_sound⟩
  obtain ⟨us, p, hus, hc⟩ := hlines.2 ts hts
  refine ⟨us, p, hus, ?_⟩
  rw [hc, hbelow]
  cases tokenize b with
  | error e => rfl
  | ok vs =>
    exact congrArg (fun ws => Except.ok (withNewline us p ++ ws)) (withoutNewline_relocate ..)

/-- A number that is malformed stays so, and the `\r` at the end of a line and the `\n` behind it
are one break. -/
theorem tokenize_lines_carriage_return :
    (tokenize "1_" = .error ⟨.misplacedSeparator, ⟨1, 2, 1⟩⟩ ∧
      tokenize ("1_" ++ "\n" ++ "1") = .error ⟨.misplacedSeparator, ⟨1, 2, 1⟩⟩) ∧
    tokenize "a\r" =
      .ok [⟨.identifier "a", ⟨1, 1, 0⟩⟩, ⟨.newline, ⟨1, 2, 1⟩⟩, ⟨.endOfInput, ⟨2, 1, 2⟩⟩] ∧
    tokenize "\nb" =
      .ok [⟨.newline, ⟨1, 1, 0⟩⟩, ⟨.identifier "b", ⟨2, 1, 1⟩⟩, ⟨.endOfInput, ⟨2, 2, 2⟩⟩] ∧
    tokenize ("a\r" ++ "\n" ++ "\nb") =
      .ok [⟨.identifier "a", ⟨1, 1, 0⟩⟩, ⟨.newline, ⟨1, 2, 1⟩⟩, ⟨.identifier "b", ⟨3, 1, 4⟩⟩,
        ⟨.endOfInput, ⟨3, 2, 5⟩⟩] ∧
    ∀ p ∈ [⟨1, 1, 0⟩, ⟨1, 2, 1⟩, ⟨3, 1, 4⟩, ⟨3, 2, 5⟩],
      Position.Sound ("a\r" ++ "\n" ++ "\nb") p := by
  have hfails : tokenize "1_" = .error ⟨.misplacedSeparator, ⟨1, 2, 1⟩⟩ := by decide +kernel
  have hupper : tokenize "a\r" =
      .ok [⟨.identifier "a", ⟨1, 1, 0⟩⟩, ⟨.newline, ⟨1, 2, 1⟩⟩, ⟨.endOfInput, ⟨2, 1, 2⟩⟩] := by
    decide +kernel
  have hlower : tokenize "\nb" =
      .ok [⟨.newline, ⟨1, 1, 0⟩⟩, ⟨.identifier "b", ⟨2, 1, 1⟩⟩, ⟨.endOfInput, ⟨2, 2, 2⟩⟩] := by
    decide +kernel
  obtain ⟨-, hread, hsound⟩ := tokenize_lines "a\r" "\nb"
  obtain ⟨us, p, hus, hjoined⟩ := hread _ hupper
  have hfront : [⟨.identifier "a", ⟨1, 1, 0⟩⟩, ⟨.newline, ⟨1, 2, 1⟩⟩] = us :=
    (congrArg List.dropLast hus).trans List.dropLast_concat
  have hboth : tokenize ("a\r" ++ "\n" ++ "\nb") =
      .ok [⟨.identifier "a", ⟨1, 1, 0⟩⟩, ⟨.newline, ⟨1, 2, 1⟩⟩, ⟨.identifier "b", ⟨3, 1, 4⟩⟩,
        ⟨.endOfInput, ⟨3, 2, 5⟩⟩] := by
    rw [hjoined, hlower, ← hfront]
    rfl
  refine ⟨⟨hfails, (tokenize_lines "1_" "1").1 _ hfails nofun⟩, hupper, hlower, hboth, ?_⟩
  have hplaces := (hsound (by decide)).1 _ hboth
  exact List.forall_mem_map.2 hplaces

end DrakeSyntax
