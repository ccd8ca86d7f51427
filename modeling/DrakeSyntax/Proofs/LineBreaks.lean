import DrakeSyntax.Proofs.Placement
import DrakeSyntax.Proofs.Relocation.Scan
import DrakeSyntax.Proofs.ShownLine

/-!
# How line breaks are written does not matter

A text is normalized by writing each of its line breaks as `\n`. Byte offsets change then, lines
and columns do not, since a line break is one cell of the text however it is written
(`CellSource.relocate_normalized`). So the tokens are the same at the same lines and columns, and so
are the program that is read from them or the error; and as a diagnostic shows lines and columns
only, it does not change either (`parse_normalized`).
-/

namespace DrakeSyntax

/-- The text with `\n` for each `\r\n`. -/
def joinBreaks : List Char → List Char
  | '\r' :: '\n' :: cs => '\n' :: joinBreaks cs
  | c :: cs => c :: joinBreaks cs
  | [] => []

/-- A `\n` for a `\r`. -/
def unifyBreak (c : Char) : Char := if c = '\r' then '\n' else c

/-- The text with `\n` for each `\r\n` and then for each `\r` that is left. -/
def normalized (text : String) : String :=
  String.ofList ((joinBreaks text.toList).map unifyBreak)

example : normalized "a\r\n\rb\r" = "a\n\nb\n" := by decide

/-- The position without its offset. -/
def Position.dropOffset (p : Position) : Position := { p with offset := 0 }

theorem dropOffset_nextLine {p q : Position} (h : p.dropOffset = q.dropOffset) (m n : Nat) :
    (p.nextLine m).dropOffset = (q.nextLine n).dropOffset := by
  simp only [Position.dropOffset, Position.mk.injEq, Position.nextLine] at h ⊢
  simp only [h.1, and_self]

theorem dropOffset_step {p q : Position} (h : p.dropOffset = q.dropOffset) (c d : Char) :
    (p.step c).dropOffset = (q.step d).dropOffset := by
  simp only [Position.dropOffset, Position.mk.injEq, Position.step] at h ⊢
  simp only [h.1, h.2.1, and_self]

namespace CellSource

theorem relocate_cons {p q : Position} {s s' : CellSource} (c : Char)
    (h : p.dropOffset = q.dropOffset)
    (hs : s.relocate Position.dropOffset = s'.relocate Position.dropOffset) :
    (cons ⟨c, p⟩ s).relocate Position.dropOffset =
      (cons ⟨c, q⟩ s').relocate Position.dropOffset := by
  simp only [CellSource.relocate, CellSource.mk.injEq] at hs
  simp only [CellSource.relocate, cons, List.map_cons, Cell.relocate, h, hs.1, hs.2]

/-- The cells of a text and of the normalized text are at the same lines and columns. -/
theorem relocate_ofChars_normalized {p q : Position} (h : p.dropOffset = q.dropOffset)
    (cs : List Char) :
    (ofChars p cs).relocate Position.dropOffset =
      (ofChars q ((joinBreaks cs).map unifyBreak)).relocate Position.dropOffset := by
  have hnewline (q : Position) (cs : List Char) :
      ofChars q ('\n' :: cs) = cons ⟨'\n', q⟩ (ofChars (q.nextLine 1) cs) := rfl
  fun_induction ofChars p cs generalizing q with
  | case1 p => simp only [joinBreaks, List.map_nil, ofChars, CellSource.relocate, h]
  | case2 p cs ih =>
    rw [joinBreaks, List.map_cons, show unifyBreak '\n' = '\n' from rfl, hnewline]
    exact relocate_cons _ h (ih (dropOffset_nextLine h 2 1))
  | case3 p cs hn ih =>
    rw [joinBreaks, List.map_cons, show unifyBreak '\r' = '\n' from rfl, hnewline]
    · exact relocate_cons _ h (ih (dropOffset_nextLine h 1 1))
    · exact fun ds _ => hn ds
  | case4 p cs ih =>
    rw [joinBreaks, List.map_cons, show unifyBreak '\n' = '\n' from rfl, hnewline]
    · exact relocate_cons _ h (ih (dropOffset_nextLine h 1 1))
    · exact fun ds hc => absurd hc (by decide)
  | case5 p c cs hrn hr hn ih =>
    have hc : breaksLine c = false := by simp [breaksLine, show c ≠ '\r' from hr,
      show c ≠ '\n' from hn]
    rw [joinBreaks, List.map_cons, unifyBreak, if_neg hr, ofChars_cons hc]
    · exact relocate_cons _ h (ih (dropOffset_step h c c))
    · exact hrn

/-- **A line break is one cell however it is written.** -/
theorem relocate_normalized (text : String) :
    (ofString text).relocate Position.dropOffset =
      (ofString (normalized text)).relocate Position.dropOffset := by
  rw [ofString, ofString, normalized, String.toList_ofList]
  exact relocate_ofChars_normalized rfl text.toList

/-- What stands on a line is a matter of lines only. -/
theorem lineChars_relocate {f : Position → Position} (hf : ∀ p, (f p).line = p.line) (s : CellSource)
    (line : Nat) : (s.relocate f).lineChars line = s.lineChars line := by
  simp only [lineChars, relocate_cells, List.filter_map, List.map_map]
  have hfilter : (fun c : Cell => c.position.line == line && !c.isBreak) ∘ Cell.relocate f =
      fun c : Cell => c.position.line == line && !c.isBreak := by
    funext c
    simp only [Function.comp_apply, Cell.relocate_position, Cell.relocate_isBreak, hf]
  rw [hfilter]
  rfl

theorem lineChars_normalized (text : String) (line : Nat) :
    (ofString text).lineChars line = (ofString (normalized text)).lineChars line := by
  rw [← lineChars_relocate (f := Position.dropOffset) (fun _ => rfl) (ofString text),
    relocate_normalized, lineChars_relocate (f := Position.dropOffset) fun _ => rfl]

end CellSource

/-- The tokens of a text and of the normalized text are at the same lines and columns, and so are
the faults. -/
theorem tokenize_normalized (text : String) :
    ((tokenize text).map (List.map (PlacedToken.relocate Position.dropOffset))).mapError
        (LexError.relocate Position.dropOffset) =
      ((tokenize (normalized text)).map
        (List.map (PlacedToken.relocate Position.dropOffset))).mapError
          (LexError.relocate Position.dropOffset) := by
  have hcells := CellSource.relocate_normalized text
  have hlength : (CellSource.ofString text).cells.length =
      (CellSource.ofString (normalized text)).cells.length := by
    simpa using congrArg (·.cells.length) hcells
  simp only [tokenize_eq, CellSource.tokens, hlength]
  rw [← CellSource.takeUpTo_relocate, ← CellSource.takeUpTo_relocate, hcells]

/-- A diagnostic shows lines and columns only. -/
theorem Diagnostic.render_normalized (name text : String) {e e' : SyntaxError}
    (h : e.relocate Position.dropOffset = e'.relocate Position.dropOffset) :
    e.summary = e'.summary ∧ render name text e = render name (normalized text) e' := by
  have hsummary : e.summary = e'.summary := by
    have hrelocate (e : SyntaxError) : (e.relocate Position.dropOffset).summary = e.summary := by
      cases e <;> rfl
    rw [← hrelocate e, h, hrelocate]
  have hposition : e.position.dropOffset = e'.position.dropOffset := by
    have hrelocate (e : SyntaxError) :
        (e.relocate Position.dropOffset).position = e.position.dropOffset := by
      cases e <;> rfl
    rw [← hrelocate e, h, hrelocate]
  obtain ⟨hline, hcolumn⟩ : e.position.line = e'.position.line ∧
      e.position.column = e'.position.column := by
    simpa [Position.dropOffset] using hposition
  refine ⟨hsummary, ?_⟩
  simp only [render, lines, shownLine_eq, padding, marginWidth, Position.text, hsummary, hline,
    hcolumn, CellSource.lineChars_normalized text]

/-- **It does not matter how line breaks are written.** From a text and from the normalized text
programs are read that differ in byte offsets only, or both fail with errors that differ in the
byte offset only. Then the diagnostics are the same. -/
theorem parse_normalized (name text : String) :
    (∃ p p', parse text = .ok p ∧ parse (normalized text) = .ok p' ∧
        p.relocate Position.dropOffset = p'.relocate Position.dropOffset) ∨
      ∃ e e', parse text = .error e ∧ parse (normalized text) = .error e' ∧
        e.relocate Position.dropOffset = e'.relocate Position.dropOffset ∧
        e.summary = e'.summary ∧
        Diagnostic.render name text e = Diagnostic.render name (normalized text) e' := by
  have htokens := tokenize_normalized text
  cases h : tokenize text with
  | error e =>
    cases h' : tokenize (normalized text) with
    | ok ts' => rw [h, h'] at htokens; cases htokens
    | error e' =>
      rw [h, h'] at htokens
      have he : (SyntaxError.lex e).relocate Position.dropOffset =
          (SyntaxError.lex e').relocate Position.dropOffset :=
        congrArg SyntaxError.lex (Except.error.inj htokens)
      refine .inr ⟨.lex e, .lex e', ?_, ?_, he, Diagnostic.render_normalized name text he⟩
      · simp only [parse, h]; rfl
      · simp only [parse, h']; rfl
  | ok ts =>
    cases h' : tokenize (normalized text) with
    | error e' => rw [h, h'] at htokens; cases htokens
    | ok ts' =>
      rw [h, h'] at htokens
      have hplaced := Except.ok.inj htokens
      obtain ⟨hend, hts⟩ := endsInput_tokenize h
      obtain ⟨-, hts'⟩ := endsInput_tokenize h'
      have htoken : ts.map (·.token) = ts'.map (·.token) := by
        simpa [Function.comp_def, PlacedToken.relocate] using
          congrArg (List.map PlacedToken.token) hplaced
      have hview : ts.map (·.position.dropOffset) = ts'.map (·.position.dropOffset) := by
        simpa [Function.comp_def, PlacedToken.relocate] using
          congrArg (List.map PlacedToken.position) hplaced
      rw [parse_of_tokenize h, parse_of_tokenize h']
      rcases parseTokens_zip hend htoken hts hts' hview with
        ⟨p, p', hp, hp', hsame⟩ | ⟨e, e', he, he', hbeside⟩
      · rw [hp, hp']
        exact .inl ⟨p, p', rfl, rfl, hsame⟩
      · rw [he, he']
        have hrelocate : (SyntaxError.parse e).relocate Position.dropOffset =
            (SyntaxError.parse e').relocate Position.dropOffset := by
          obtain ⟨⟨q, hq, hposition, hposition'⟩, hexpected, hfound, hnote⟩ := hbeside
          have hq := (placed_zip hend htoken hts hts' hview).position q hq
          simp only [SyntaxError.relocate, ParseError.relocate, hposition, hposition', hq,
            hexpected, hfound, hnote]
        exact .inr ⟨.parse e, .parse e', rfl, rfl, hrelocate,
          Diagnostic.render_normalized name text hrelocate⟩

end DrakeSyntax
