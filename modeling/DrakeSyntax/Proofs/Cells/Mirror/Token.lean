import DrakeSyntax.Proofs.Cells.Mirror.Gap
import DrakeSyntax.Proofs.Cells.Mirror.Numeral
import DrakeSyntax.Proofs.Cells.Progress
import DrakeSyntax.Proofs.Spelling.Scan

/-!
# Tokens of characters as tokens of cells

A token is scanned from characters as it is from cells (`Scan.mirrors_token`). The scanner finds a
punctuator by taking one character after the other; that is the longest one spelled there
(`Scan.mirrors_punctuator`).
-/

namespace DrakeSyntax

variable {s s' : Source} {start : Position} {quote : Char}

/-! ### Strings -/

namespace StringBody

/-- What a scan has come to from `s` is what the cells hold, with `value` in front. -/
inductive Taken (s : Source) (start : Position) (value : List Char) :
    StringBody → EStateM.Result LexError Source (List Char) → Prop
  | closed {v : List Char} {s' : Source} (follows : s'.Follows s) :
      Taken s start value (.closed v s'.asCells.cells) (.ok (value ++ v) s')
  | unclosed {s' : Source} (follows : s'.Follows s) :
      Taken s start value (.unclosed s'.asCells.cells) (.error ⟨.unterminatedString, start⟩ s')

/-- A character is taken first, which stands for `c`. -/
theorem Taken.cons {value : List Char} {c : Char} {body : StringBody}
    {r : EStateM.Result LexError Source (List Char)}
    (h : Taken s' start (value ++ [c]) body r) (hs : s'.Follows s) :
    Taken s start value (body.cons c) r := by
  cases h with
  | @closed v s'' follows =>
    rw [List.append_assoc]
    exact .closed (follows.trans hs)
  | unclosed follows => exact .unclosed (follows.trans hs)

/-- Behind a backslash the next cell decides. -/
theorem read_backslash (hend : ¬ s.atEnd) (hbreak : ¬ isLineBreak s.peek)
    (hquote : ¬ (s.peek == quote) = true) (hslash : ¬ (s.peek != '\\') = true) :
    read quote s.asCells.cells = match s.advance.asCells.cells with
      | [] => unclosed []
      | d :: ds =>
        if d.isBreak then unclosed (d :: ds) else (read quote ds).cons (escaped d.char) := by
  have hline := breaksLine_of_not_isLineBreak hbreak
  have hquote : ¬ s.peek = quote := by simpa using hquote
  have hslash : s.peek = '\\' := by simpa using hslash
  rw [Source.asCells_advance hend hline, CellSource.cons, read.eq_def]
  refine (if_neg (Cell.not_isBreak hline)).trans ((if_neg hquote).trans ((if_pos hslash).trans ?_))
  cases s.advance.asCells.cells <;> rfl

theorem taken_stringBody (quote : Char) (start : Position) (value : List Char) (s : Source) :
    Taken s start value (read quote s.asCells.cells) (Scan.stringBody quote start value s) := by
  fun_induction Scan.stringBody quote start value s with
  | case1 value s hend =>
    have hread : read quote s.asCells.cells = .unclosed s.asCells.cells := by
      rw [Source.asCells_of_atEnd hend]
      rfl
    rw [hread]
    exact .unclosed (.refl s)
  | case2 value s hend hbreak =>
    have hread : read quote s.asCells.cells = .unclosed s.asCells.cells := by
      rw [Source.asCells_consumeLineBreak hend hbreak, CellSource.cons, read.eq_def]
      exact if_pos rfl
    rw [hread]
    exact .unclosed (.refl s)
  | case3 value s hend hbreak t hquote =>
    have hline := breaksLine_of_not_isLineBreak hbreak
    have hread : read quote s.asCells.cells = .closed [] t.asCells.cells := by
      rw [Source.asCells_advance hend hline, CellSource.cons, read.eq_def]
      exact (if_neg (Cell.not_isBreak hline)).trans (if_pos (beq_iff_eq.1 hquote))
    have hclosed : Taken s start value (.closed [] t.asCells.cells) (.ok (value ++ []) t) :=
      .closed (Source.follows_advance hend hline)
    rw [hread]
    rwa [List.append_nil] at hclosed
  | case4 value s hend hbreak t hquote hplain ih =>
    have hline := breaksLine_of_not_isLineBreak hbreak
    have hread : read quote s.asCells.cells = (read quote t.asCells.cells).cons s.peek := by
      rw [Source.asCells_advance hend hline]
      exact read_plain _ hline (by simpa using hquote) (by simpa using hplain)
    rw [hread]
    exact ih.cons (Source.follows_advance hend hline)
  | case5 value s hend hbreak t hquote hslash hends =>
    have hline := breaksLine_of_not_isLineBreak hbreak
    have hread : read quote s.asCells.cells = .unclosed t.asCells.cells := by
      rw [read_backslash hend hbreak hquote hslash]
      cases hfront : t.front with
      | atEnd hend cells => rw [cells]
      | lineBreak hend hbreak cells =>
        rw [cells]
        exact if_pos rfl
      | char hend hline =>
        obtain hnone | hbreak := Bool.or_eq_true_iff.1 hends
        · exact absurd hnone hend
        · exact absurd (hbreak.symm.trans hline) Bool.noConfusion
    rw [hread]
    exact .unclosed (Source.follows_advance hend hline)
  | case6 value s hend hbreak t hquote hslash hmore ih =>
    have hline := breaksLine_of_not_isLineBreak hbreak
    rw [Bool.or_eq_true, not_or] at hmore
    have hline' := breaksLine_of_not_isLineBreak hmore.2
    have hread : read quote s.asCells.cells =
        (read quote t.advance.asCells.cells).cons (escaped t.peek) := by
      rw [read_backslash hend hbreak hquote hslash, Source.asCells_advance hmore.1 hline']
      exact if_neg (Cell.not_isBreak hline')
    rw [hread]
    exact ih.cons ((Source.follows_advance hmore.1 hline').trans (Source.follows_advance hend hline))

end StringBody

namespace CellScan

variable {q : Char → Bool} {c : Cell} {t : CellSource}

theorem takeWhile_cons (hc : q c.char) :
    takeWhile q (t.cons c) = (do return c.char :: (← takeWhile q)) t := by
  simp only [Bind.bind, EStateM.bind, takeWhile, CellSource.cons, List.takeWhile_cons,
    List.dropWhile_cons, hc, if_true]
  rfl

theorem takeWhile_none (h : ∀ c ∈ t.cells.head?, ¬ q c.char) : takeWhile q t = .ok [] t := by
  obtain ⟨_ | ⟨c, cs⟩, finish⟩ := t
  · rfl
  · have hc := h c rfl
    simp only [takeWhile, List.takeWhile_cons, List.dropWhile_cons, hc]
    rfl

theorem bind_congr {α β : Type} {p p' : CellScan α} {k : α → CellScan β} {t t' : CellSource}
    (h : p t = p' t') : (p >>= k) t = (p' >>= k) t' := by
  simp only [Bind.bind, EStateM.bind, h]

end CellScan

namespace Scan

/-- What a scan of cells takes is what is left of them behind it. -/
theorem asCells_of_follows (h : s'.Follows s) :
    s'.asCells = ⟨s'.asCells.cells, s.asCells.finish⟩ := by
  rw [← h.finish]

theorem mirrors_stringLiteral (quote : Char) (start : Position) :
    Mirrors id (stringLiteral quote start) (CellScan.stringLiteral quote start) := by
  intro s
  have htaken := StringBody.taken_stringBody quote start [] s
  unfold MirrorsAt
  rw [CellScan.stringLiteral_run]
  simp only [stringLiteral, Functor.map, EStateM.map]
  generalize StringBody.read quote s.asCells.cells = body at htaken
  generalize stringBody quote start [] s = r at htaken
  cases htaken with
  | closed follows => exact .ok rfl (asCells_of_follows follows) follows
  | unclosed follows => exact .error (asCells_of_follows follows) follows

/-! ### Words -/

theorem mirrors_wordRest (name : List Char) :
    Mirrors (name ++ ·) (wordRest name) (CellScan.takeWhile isWordChar) := by
  intro s
  unfold MirrorsAt
  fun_induction wordRest name s with
  | case1 name s hend =>
    rw [Source.asCells_of_atEnd hend]
    exact .ok (List.append_nil name).symm (Source.asCells_of_atEnd hend) (.refl s)
  | case2 name s hend hword ih =>
    obtain ⟨-, hline⟩ := Source.inLine_of_peek (q := isWordChar) rfl rfl rfl hword
    rw [Source.asCells_advance hend hline, CellScan.takeWhile_cons hword]
    refine (ih.map fun w => ?_).of_follows (Source.follows_advance hend hline)
    simp
  | case3 name s hend hword =>
    have hnone : ∀ c ∈ s.asCells.cells.head?, ¬ isWordChar c.char :=
      Source.head_asCells (P := fun c => ¬ isWordChar c) (by decide) fun _ => hword
    rw [CellScan.takeWhile_none hnone]
    exact .ok (List.append_nil name).symm rfl (.refl s)

end Scan

/-! ### Punctuators -/

/-- The characters that go on with the punctuator in a longer one. -/
def Punctuator.goesOn (p : Punctuator) : List Char :=
  byLength.filterMap fun q =>
    if p.spelling.toList.isPrefixOf q.spelling.toList then
      q.spelling.toList[p.spelling.toList.length]?
    else none

theorem Punctuator.ends_of_goesOn {p : Punctuator} {k : List Char}
    (h : ∀ c ∈ k.head?, c ∉ p.goesOn) : p.Ends k := by
  rintro c hc q ⟨more, hmore⟩
  refine h c hc (List.mem_filterMap.2 ⟨q, q.mem_byLength, ?_⟩)
  rw [← hmore, List.append_assoc, if_pos (List.isPrefixOf_iff_prefix.2 (List.prefix_append ..))]
  simp

/-- The characters that punctuators are made of. -/
def Punctuator.characters : List Char :=
  ['(', ')', '[', ']', '\x7b', '\x7d', ',', ':', '.', '-', '*', '<', '>', '+', '/', '%', '&', '|',
    '^', '=', '!']

theorem Punctuator.mem_characters (p : Punctuator) : ∀ c ∈ p.spelling.toList, c ∈ characters := by
  refine List.all_iff_forall_prop.1 ?_
  decide +revert +kernel

namespace Scan

/-- What stands between two sources is `w`. -/
def Spelled (s s' : Source) (w : List Char) : Prop :=
  s'.Follows s ∧ ∃ taken, s.asCells = .behind taken s'.asCells ∧ taken.map Cell.char = w

variable {w : List Char}

theorem Spelled.advance (h : Spelled s s' w) (hend : ¬ s'.atEnd)
    (hline : breaksLine s'.peek = false) : Spelled s s'.advance (w ++ [s'.peek]) := by
  obtain ⟨hfollows, taken, hcells, rfl⟩ := h
  refine ⟨(Source.follows_advance hend hline).trans hfollows,
    taken ++ [⟨s'.peek, s'.position⟩], ?_, by simp⟩
  rw [hcells, Source.asCells_advance hend hline, CellSource.behind_append]
  rfl

theorem spelled_advance (hend : ¬ s.atEnd) (hline : breaksLine s.peek = false) :
    Spelled s s.advance [s.peek] :=
  Spelled.advance (w := []) ⟨.refl s, [], rfl, rfl⟩ hend hline

/-- A punctuator is the longest one if no other goes on with it. -/
theorem Spelled.longest {p : Punctuator} (h : Spelled s s' p.spelling.toList)
    (hnext : ∀ d ∈ s'.asCells.cells.head?, d.char ∉ p.goesOn) (c : Char) (start : Position) :
    Mirrored s id (.ok (.punctuator p) s') (CellScan.lexeme c start s.asCells) := by
  obtain ⟨hfollows, taken, hcells, hw⟩ := h
  have hends : p.Ends (s'.asCells.cells.map Cell.char) := by
    refine Punctuator.ends_of_goesOn fun d hd => ?_
    rw [List.head?_map] at hd
    obtain ⟨cell, hcell, rfl⟩ := Option.map_eq_some_iff.1 hd
    exact hnext cell hcell
  have hread := CellScan.reads_punctuator p c start hends taken s'.asCells.cells
    s'.asCells.finish hw rfl
  rw [hcells, CellSource.behind, hread]
  exact .ok rfl rfl hfollows

/-- With some punctuators no other one goes on. -/
theorem Spelled.alone {p : Punctuator} (h : Spelled s s' p.spelling.toList) (hp : p.goesOn = [])
    (c : Char) (start : Position) :
    Mirrored s id (.ok (.punctuator p) s') (CellScan.lexeme c start s.asCells) :=
  h.longest (fun d _ hd => by rw [hp] at hd; cases hd) c start

/-- A character is taken if it is the expected one. -/
theorem Spelled.matchChar {r : EStateM.Result LexError CellSource Token} {k : Bool → Scan Token}
    {e : Char} (he : breaksLine e = false) (h : Spelled s s' w)
    (htrue : Spelled s s'.advance (w ++ [e]) → Mirrored s id (k true s'.advance) r)
    (hfalse : (∀ d ∈ s'.asCells.cells.head?, d.char ≠ e) → Mirrored s id (k false s') r) :
    Mirrored s id ((matchChar e >>= k) s') r := by
  simp only [Bind.bind, EStateM.bind, Scan.matchChar]
  split
  · next hno =>
    split at hno
    · next hother =>
      cases hno
      refine hfalse (Source.head_asCells (P := (· ≠ e)) (fun hn => ?_) fun hend hpeek => ?_)
      · rw [← hn] at he
        cases he
      · simp [hend, hpeek] at hother
    · next hsame =>
      cases hno
      rw [Bool.or_eq_true, not_or] at hsame
      obtain ⟨hend, hpeek⟩ := hsame
      have hpeek : s'.peek = e := by simpa using hpeek
      have hspelled := h.advance hend (hpeek ▸ he)
      rw [hpeek] at hspelled
      exact htrue hspelled
  · next hno =>
    split at hno
    · cases hno
    · cases hno

/-- An equals sign behind a punctuator belongs to it, and nothing else does. -/
theorem Spelled.withEqual {p q : Punctuator} (h : Spelled s s' p.spelling.toList)
    (hequal : p.spelling.toList ++ ['='] = q.spelling.toList) (hlast : q.goesOn = [])
    (hnext : ∀ d ∈ s'.asCells.cells.head?, d.char ∈ p.goesOn → d.char = '=')
    (c : Char) (start : Position) :
    Mirrored s id (withEqual p q s') (CellScan.lexeme c start s.asCells) := by
  refine h.matchChar rfl (fun hspelled => ?_) fun hother => ?_
  · rw [hequal] at hspelled
    exact hspelled.alone hlast c start
  · exact h.longest (fun d hd hmem => hother d hd (hnext d hd hmem)) c start

/-- With some punctuators only an equals sign goes on. -/
theorem Spelled.withOnlyEqual {p q : Punctuator} (h : Spelled s s' p.spelling.toList)
    (hequal : p.spelling.toList ++ ['='] = q.spelling.toList) (hlast : q.goesOn = [])
    (honly : p.goesOn.all (· == '=')) (c : Char) (start : Position) :
    Mirrored s id (Scan.withEqual p q s') (CellScan.lexeme c start s.asCells) := by
  refine h.withEqual hequal hlast (fun d _ hd => ?_) c start
  exact beq_iff_eq.1 (List.all_eq_true.1 honly d.char hd)

/-- With some punctuators only an equals sign and one other character go on. -/
theorem Spelled.withEqualBut {p q : Punctuator} {e : Char} (h : Spelled s s' p.spelling.toList)
    (hequal : p.spelling.toList ++ ['='] = q.spelling.toList) (hlast : q.goesOn = [])
    (honly : p.goesOn.all fun d => d == e || d == '=')
    (hother : ∀ d ∈ s'.asCells.cells.head?, d.char ≠ e) (c : Char) (start : Position) :
    Mirrored s id (Scan.withEqual p q s') (CellScan.lexeme c start s.asCells) := by
  refine h.withEqual hequal hlast (fun d hd hmem => ?_) c start
  have hd' := List.all_eq_true.1 honly d.char hmem
  rw [Bool.or_eq_true, beq_iff_eq, beq_iff_eq] at hd'
  exact hd'.resolve_left (hother d hd)

theorem skip_asCells (hend : ¬ s.atEnd) (hline : breaksLine s.peek = false) :
    CellScan.skip 1 s.asCells = .ok () s.advance.asCells := by
  rw [Source.asCells_advance hend hline]
  rfl

/-- A character that no punctuator has is left to the other scans. -/
theorem lexeme_of_plain (hend : ¬ s.atEnd) (hline : breaksLine s.peek = false)
    (hplain : ∀ p : Punctuator, s.peek ∉ p.spelling.toList) (start : Position) :
    CellScan.lexeme s.peek start s.asCells =
      (if isWordStart s.peek then do
        return .ofWord (String.ofList (← CellScan.takeWhile isWordChar))
      else do
        CellScan.skip 1
        if s.peek == '"' || s.peek == '\'' then
          return .string (← CellScan.stringLiteral s.peek start)
        if s.peek.isDigit then return .number (← CellScan.number s.peek start)
        CellScan.failAt start (.unexpectedCharacter s.peek) : CellScan Token) s.asCells := by
  have hfront : (s.asCells.cells.take 3).map Cell.char =
      s.peek :: (s.advance.asCells.cells.take 2).map Cell.char := by
    rw [Source.asCells_advance hend hline]
    rfl
  have hnone : Punctuator.longest? ((s.asCells.cells.take 3).map Cell.char) = none := by
    rw [hfront]
    exact Punctuator.longest?_eq_none hplain
  rw [CellScan.lexeme, CellScan.bind_of_ok (rfl : CellScan.ahead 3 s.asCells = .ok _ s.asCells),
    hnone]

theorem mirrors_quote (hend : ¬ s.atEnd) (hquote : s.peek = '"' ∨ s.peek = '\'')
    (start : Position) :
    Mirrored s id ((do return .string (← stringLiteral s.peek start) : Scan Token) s.advance)
      (CellScan.lexeme s.peek start s.asCells) := by
  have hline : breaksLine s.peek = false := by rcases hquote with h | h <;> rw [h] <;> rfl
  have hword : ¬ isWordStart s.peek := by rcases hquote with h | h <;> rw [h] <;> decide
  have hplain (p : Punctuator) : s.peek ∉ p.spelling.toList := fun hp => by
    obtain ⟨-, -, hdouble, hsingle, -⟩ := p.special _ hp
    exact hquote.elim hdouble hsingle
  have hstring : MirrorsAt s.advance id (do return .string (← stringLiteral s.peek start))
      (do return Token.string (← CellScan.stringLiteral s.peek start)) :=
    (mirrors_stringLiteral s.peek start s.advance).bind fun _ _ _ => .pure rfl
  have htest : (s.peek == '"' || s.peek == '\'') = true := by simpa using hquote
  rw [lexeme_of_plain hend hline hplain, if_neg hword, CellScan.bind_of_ok (skip_asCells hend hline)]
  simp only [htest, if_true]
  exact hstring.of_follows (Source.follows_advance hend hline)

/-- A character that begins neither a punctuator nor a string begins a number or a word, or
nothing. -/
theorem mirrors_plain (hend : ¬ s.atEnd) (hline : breaksLine s.peek = false)
    (hplain : ∀ p : Punctuator, s.peek ∉ p.spelling.toList)
    (hquote : ¬ (s.peek = '"' ∨ s.peek = '\'')) (start : Position) :
    Mirrored s id
      ((if s.peek.isDigit then do return .number (← number s.peek start)
        else if isWordStart s.peek then word s.peek
        else failAt start (.unexpectedCharacter s.peek) : Scan Token) s.advance)
      (CellScan.lexeme s.peek start s.asCells) := by
  have hfollows := Source.follows_advance hend hline
  rw [lexeme_of_plain hend hline hplain]
  by_cases hword : isWordStart s.peek
  · have hdigit : ¬ s.peek.isDigit := fun h => by
      rw [CellScan.isWordStart_of_isDigit h] at hword
      cases hword
    have htake : CellScan.takeWhile isWordChar s.asCells =
        (do return s.peek :: (← CellScan.takeWhile isWordChar)) s.advance.asCells := by
      rw [Source.asCells_advance hend hline]
      exact CellScan.takeWhile_cons (isWordChar_of_isWordStart hword)
    have hrest : MirrorsAt s.advance id (wordRest [s.peek])
        (do return s.peek :: (← CellScan.takeWhile isWordChar)) :=
      (mirrors_wordRest [s.peek] s.advance).map fun _ => rfl
    have hname : MirrorsAt s.advance id (word s.peek) _ :=
      hrest.bind (l := fun w => pure (Token.ofWord (String.ofList w))) fun _ _ _ => .pure rfl
    rw [if_neg hdigit, if_pos hword, if_pos hword, CellScan.bind_congr htake]
    exact hname.of_follows hfollows
  · have htest : (s.peek == '"' || s.peek == '\'') = false := by simpa using hquote
    rw [if_neg hword, if_neg hword, CellScan.bind_of_ok (skip_asCells hend hline)]
    simp only [htest, Bool.false_eq_true, if_false]
    by_cases hdigit : s.peek.isDigit
    · simp only [hdigit, if_true]
      have hnumber : MirrorsAt s.advance id (do return .number (← number s.peek start))
          (do return Token.number (← CellScan.number s.peek start)) :=
        (mirrors_number s.peek start s.advance).bind fun _ _ _ => .pure rfl
      exact hnumber.of_follows hfollows
    · simp only [hdigit, Bool.false_eq_true, if_false]
      exact .error rfl hfollows

/-- **A lexeme is scanned as one of cells.** -/
theorem mirrors_lexeme (hend : ¬ s.atEnd) (hline : breaksLine s.peek = false) (start : Position) :
    MirrorsAt s id (advance >>= fun c => lexemeFrom c start) (CellScan.lexeme s.peek start) := by
  change Mirrored s id (lexemeFrom s.peek start s.advance)
    (CellScan.lexeme s.peek start s.asCells)
  have hfirst := spelled_advance hend hline
  generalize hc : s.peek = c at hfirst ⊢
  unfold lexemeFrom
  split
  · exact hfirst.alone (p := .leftParen) rfl _ _
  · exact hfirst.alone (p := .rightParen) rfl _ _
  · exact hfirst.alone (p := .leftBracket) rfl _ _
  · exact hfirst.alone (p := .rightBracket) rfl _ _
  · exact hfirst.alone (p := .leftBrace) rfl _ _
  · exact hfirst.alone (p := .rightBrace) rfl _ _
  · exact hfirst.alone (p := .comma) rfl _ _
  · exact hfirst.alone (p := .colon) rfl _ _
  · have hnext : ∀ d ∈ Punctuator.dot.goesOn, d = '.' :=
      List.all_iff_forall_prop.1 (by decide)
    refine hfirst.matchChar rfl (fun h => h.alone (p := .dotDot) rfl _ _) fun hother => ?_
    exact hfirst.longest (p := .dot) (fun d hd hmem => hother d hd (hnext _ hmem)) _ _
  · refine hfirst.matchChar rfl (fun h => h.alone (p := .arrow) rfl _ _) fun hother => ?_
    exact hfirst.withEqualBut (p := .minus) rfl rfl rfl hother _ _
  · refine hfirst.matchChar rfl
      (fun h => h.withOnlyEqual (p := .starStar) rfl rfl rfl _ _) fun hother => ?_
    exact hfirst.withEqualBut (p := .star) rfl rfl rfl hother _ _
  · refine hfirst.matchChar rfl
      (fun h => h.withOnlyEqual (p := .lessLess) rfl rfl rfl _ _) fun hother => ?_
    exact hfirst.withEqualBut (p := .less) rfl rfl rfl hother _ _
  · refine hfirst.matchChar rfl
      (fun h => h.withOnlyEqual (p := .greaterGreater) rfl rfl rfl _ _) fun hother => ?_
    exact hfirst.withEqualBut (p := .greater) rfl rfl rfl hother _ _
  · exact hfirst.withOnlyEqual (p := .plus) rfl rfl rfl _ _
  · exact hfirst.withOnlyEqual (p := .slash) rfl rfl rfl _ _
  · exact hfirst.withOnlyEqual (p := .percent) rfl rfl rfl _ _
  · exact hfirst.withOnlyEqual (p := .ampersand) rfl rfl rfl _ _
  · exact hfirst.withOnlyEqual (p := .bar) rfl rfl rfl _ _
  · exact hfirst.withOnlyEqual (p := .caret) rfl rfl rfl _ _
  · exact hfirst.withOnlyEqual (p := .assign) rfl rfl rfl _ _
  · exact hfirst.withOnlyEqual (p := .exclamation) rfl rfl rfl _ _
  · have hquote := mirrors_quote hend (.inl hc) start
    rw [hc] at hquote
    exact hquote
  · have hquote := mirrors_quote hend (.inr hc) start
    rw [hc] at hquote
    exact hquote
  · subst hc
    refine mirrors_plain hend hline (fun p hp => ?_) (by tauto) start
    have hmem := p.mem_characters _ hp
    simp only [Punctuator.characters, List.mem_cons, List.not_mem_nil, or_false] at hmem
    tauto

/-! ### Tokens -/

/-- **A token is scanned as one of cells.** -/
theorem mirrors_token : Mirrors id token CellScan.token := by
  intro s
  have hgap := mirrors_gap s
  unfold MirrorsAt at hgap ⊢
  unfold token CellScan.token
  generalize hcells : CellScan.gap s.asCells = r at hgap
  generalize hrun : gap s = r' at hgap
  cases hgap with
  | error cells follows =>
    rw [bind_of_error hrun, CellScan.bind_of_error hcells]
    exact .error cells follows
  | @ok firstBreak b s' t value cells follows =>
    obtain rfl : firstBreak = b := value
    subst cells
    rw [bind_of_ok hrun, CellScan.bind_of_ok hcells]
    cases firstBreak with
    | some position => exact .ok rfl rfl follows
    | none =>
      have hhead := CellScan.head_of_gap hcells
      refine Mirrored.of_follows (MirrorsAt.position_bind (MirrorsAt.atEnd_bind ?_)) follows
      cases s'.front with
      | atEnd hend cells =>
        rw [if_pos hend]
        unfold MirrorsAt
        rw [cells]
        exact .ok rfl cells (.refl s')
      | lineBreak hend hbreak cells =>
        rw [cells] at hhead
        exact absurd rfl (hhead _ rfl)
      | char hend hline cells =>
        have hlexeme := (mirrors_lexeme hend hline s'.position).bind (g := id)
          (k := fun t => pure ⟨t, s'.position⟩) (l := fun t => pure (PlacedToken.mk t s'.position))
          fun _ _ _ => .pure rfl
        rw [if_neg hend]
        unfold MirrorsAt at hlexeme ⊢
        rw [cells] at hlexeme ⊢
        exact hlexeme

end Scan

end DrakeSyntax
