import DrakeSyntax.Proofs.Spelling
import DrakeSyntax.Proofs.Spelling.Gap
import DrakeSyntax.Proofs.Spelling.Scan

/-!
# Reading spelled tokens

Tokens that are spelled with trivia in front of, between and behind them are read back
(`tokenize_spelled`): every gap that holds a line break is one more token, and nothing else is.
`ReadsAs k us` says that a source that shows the text `k` is read as the tokens `us`; it has one
rule for the end, one for a gap and one for a lexeme.
-/

namespace DrakeSyntax

/-! ### Where a gap and a lexeme end -/

/-- What begins with no stop does not begin with a gap. -/
theorem gapFree_cons {c : Char} (hc : c ∉ stops) (k : List Char) : GapFree (c :: k) := by
  simp only [stops, List.mem_cons, List.not_mem_nil, or_false, not_or] at hc
  obtain ⟨hspace, htab, hvt, hff, hn, hr, hslash⟩ := hc
  refine ⟨?_, ?_, fun h => absurd h hslash⟩
  · simp [isBlank, hspace, htab, hvt, hff]
  · simp [breaksLine, hn, hr]

theorem not_mem_stops {q : Char → Bool} (hq : ∀ d ∈ stops, q d = false) {c : Char} (hc : q c) :
    c ∉ stops := by
  intro hstop
  rw [hq c hstop] at hc
  cases hc

/-- Only a `/` begins a gap together with what stands behind it. -/
theorem Punctuator.gapFree (p : Punctuator) {k : List Char}
    (hslash : p = .slash → ∀ d ∈ k.head?, d ≠ '/' ∧ d ≠ '*') :
    GapFree (p.spelling.toList ++ k) := by
  by_cases hp : p = .slash
  · subst hp
    exact ⟨rfl, rfl, fun _ => hslash rfl⟩
  · have hspelling : ∃ c w, p.spelling.toList = c :: w ∧
        (c ∉ stops ∨ c :: w = ['/', '=']) := by
      cases p with
      | slash => exact absurd rfl hp
      | slashEqual => exact ⟨_, _, rfl, .inr rfl⟩
      | _ => exact ⟨_, _, rfl, .inl (by decide)⟩
    obtain ⟨c, w, hw, hc | hc⟩ := hspelling
    · rw [hw]
      exact gapFree_cons hc _
    · rw [hw, hc]
      refine ⟨rfl, rfl, fun _ d hd => ?_⟩
      cases hd
      decide

/-- A lexeme does not begin with a gap. -/
theorem Lexeme.gapFree {w k : List Char} {t : Token} (h : Lexeme w t)
    (hslash : t = .punctuator .slash → ∀ d ∈ k.head?, d ≠ '/' ∧ d ≠ '*') :
    GapFree (w ++ k) := by
  have hword : ∀ d ∈ stops, isWordStart d = false := List.all_iff_forall_prop.1 (by decide)
  have hdigit : ∀ d ∈ stops, d.isDigit = false := List.all_iff_forall_prop.1 (by decide)
  cases h with
  | identifier hname => exact gapFree_cons (not_mem_stops hword (nameLike_iff.1 hname).1) _
  | keyword kw =>
    obtain ⟨c, w, hspelling, hc, -⟩ := kw.spelling_eq_cons
    rw [hspelling]
    exact gapFree_cons (not_mem_stops hword hc) _
  | punctuator p => exact p.gapFree fun hp => hslash (by rw [hp])
  | number h =>
    cases w with
    | nil => exact absurd rfl (Lexeme.number h).ne_nil
    | cons c w => exact gapFree_cons (not_mem_stops hdigit (CellScan.isDigit_of_numeral h)) _
  | string hq =>
    refine gapFree_cons ?_ _
    rcases hq with rfl | rfl <;> decide

namespace CellSource

/-- Characters within a line are cells. -/
theorem ofChars_append {w : List Char} (hw : ∀ c ∈ w, breaksLine c = false) (p : Position)
    (k : List Char) : ∃ taken q, taken.map Cell.char = w ∧
      ofChars p (w ++ k) = ⟨taken ++ (ofChars q k).cells, (ofChars q k).finish⟩ := by
  induction w generalizing p with
  | nil => exact ⟨[], p, rfl, rfl⟩
  | cons c w ih =>
    obtain ⟨hc, hw⟩ := List.forall_mem_cons.1 hw
    obtain ⟨taken, q, rfl, hcells⟩ := ih hw (p.step c)
    refine ⟨⟨c, p⟩ :: taken, q, rfl, ?_⟩
    rw [List.cons_append, ofChars_cons hc, hcells]
    rfl

/-- What holds of the first character of a text, and of a line break, holds of its first cell. -/
theorem head_ofChars {P : Char → Prop} {k : List Char} (hbreak : P '\n') (hk : ∀ c ∈ k.head?, P c)
    (p : Position) : ∀ c ∈ ((ofChars p k).cells.map Cell.char).head?, P c := by
  cases k with
  | nil => exact hk
  | cons c k =>
    cases hc : breaksLine c with
    | true =>
      obtain ⟨q, -, hcells | ⟨s, hcells, -⟩⟩ := ofChars_break hc p k
      all_goals
        rw [hcells]
        rintro d ⟨rfl⟩
        exact hbreak
    | false =>
      rw [ofChars_cons hc]
      exact hk

end CellSource

/-! ### Reading a text as tokens -/

/-- The token for the line breaks of a gap, if it has one. -/
def newlines (g : List Char) : List Token := if g.any breaksLine then [.newline] else []

/-- A source that shows the text is read as the tokens. -/
def ReadsAs (k : List Char) (us : List Token) : Prop :=
  ∀ p n, (CellSource.ofChars p k).cells.length < n → ∃ ts,
    CellSource.takeUpTo n (CellSource.ofChars p k) = .ok ts ∧ ts.map (·.token) = us

theorem CellSource.takeUpTo_cons {n : Nat} {s s' : CellSource} {t : PlacedToken}
    {ts : List PlacedToken} (ht : CellScan.token s = .ok t s') (hend : t.token ≠ .endOfInput)
    (hts : takeUpTo n s' = .ok ts) : takeUpTo (n + 1) s = .ok (t :: ts) := by
  rw [takeUpTo]
  simp only [ht, if_neg hend, hts]
  rfl

namespace ReadsAs

variable {k w g : List Char} {t : Token} {us : List Token}

theorem nil : ReadsAs [] [.endOfInput] := by
  intro p n hn
  cases n with
  | zero => cases hn
  | succ n => exact ⟨[⟨.endOfInput, p⟩], rfl, rfl⟩

/-- A gap is read as its line breaks. -/
theorem gap (hk : GapFree k) (hg : Trivia true g) (h : ReadsAs k us) :
    ReadsAs (g ++ k) (newlines g ++ us) := by
  intro p n hn
  obtain ⟨state, firstBreak, q, rfl, hbreak, hfinish, hskip⟩ :=
    Gap.leads_trivia hg rfl .plain rfl none p k
  rw [Gap.skip_of_gapFree hk] at hskip
  have hgap :
      CellScan.gap (CellSource.ofChars p (g ++ k)) = .ok firstBreak (CellSource.ofChars q k) := by
    rw [CellScan.gap_run, Gap.leading, hskip, hfinish]
  have hsettled : (CellSource.ofChars q k).Settled := Gap.skip_of_gapFree hk none q
  have hsuffix : (CellSource.ofChars q k).cells <:+ (CellSource.ofChars p (g ++ k)).cells := by
    have := Gap.skip_suffix .plain none (CellSource.ofChars p (g ++ k)).cells
    rwa [hskip] at this
  have hlength := hsuffix.length_le
  cases n with
  | zero => cases hn
  | succ n =>
    cases firstBreak with
    | none =>
      have hnone : g.any breaksLine = false := hbreak.symm
      rw [newlines, hnone, CellSource.takeUpTo_congr (CellScan.token_of_gap hgap hsettled)]
      exact h q (n + 1) (by omega)
    | some b =>
      have hsome : g.any breaksLine = true := hbreak.symm
      have hlt := CellScan.lt_of_break hgap hsettled hsuffix
      obtain ⟨ts, hts, rfl⟩ := h q n (by omega)
      rw [newlines, hsome]
      exact ⟨_, CellSource.takeUpTo_cons (CellScan.token_of_break hgap) (by simp) hts, rfl⟩

/-- What a scan reads in front of the cells of `k` is read as a token in front of `k`. -/
theorem of_reads {c : Char} (hline : ∀ d ∈ c :: w, breaksLine d = false)
    (hfree : GapFree (c :: w ++ k)) (hend : t ≠ .endOfInput)
    (hread : ∀ start q,
      CellScan.Reads ((CellSource.ofChars q k).cells.map Cell.char) (CellScan.lexeme c start)
        (c :: w) t)
    (h : ReadsAs k us) : ReadsAs (c :: w ++ k) (t :: us) := by
  intro p n hn
  obtain ⟨taken, q, htaken, hcells⟩ := CellSource.ofChars_append hline p k
  have hsettled : (CellSource.ofChars p (c :: w ++ k)).Settled := Gap.skip_of_gapFree hfree none p
  rw [hcells] at hsettled hn ⊢
  obtain ⟨d, taken, rfl, rfl, -⟩ := List.map_eq_cons_iff.1 htaken
  have hlexeme : CellScan.lexeme d.char d.position
      ⟨d :: taken ++ (CellSource.ofChars q k).cells, (CellSource.ofChars q k).finish⟩ =
        .ok t (CellSource.ofChars q k) :=
    hread d.position q (d :: taken) _ _ htaken rfl
  have htoken : CellScan.token
      ⟨d :: taken ++ (CellSource.ofChars q k).cells, (CellSource.ofChars q k).finish⟩ =
        .ok ⟨t, d.position⟩ (CellSource.ofChars q k) := by
    unfold CellScan.token
    rw [CellScan.bind_of_ok (CellScan.gap_of_settled hsettled)]
    change (CellScan.lexeme d.char d.position >>= fun a => pure (PlacedToken.mk a d.position)) _ = _
    rw [CellScan.bind_of_ok hlexeme]
    rfl
  cases n with
  | zero => cases hn
  | succ n =>
    simp only [List.cons_append, List.length_cons, List.length_append] at hn
    obtain ⟨ts, hts, rfl⟩ := h q n (by omega)
    exact ⟨_, CellSource.takeUpTo_cons htoken hend hts, rfl⟩

/-- A lexeme is read as its token. -/
theorem lexeme (hw : Lexeme w t) (hfree : GapFree (w ++ k)) (hk : ∀ c ∈ k.head?, c ∈ stops)
    (h : ReadsAs k us) : ReadsAs (w ++ k) (t :: us) := by
  cases w with
  | nil => exact absurd rfl hw.ne_nil
  | cons c w =>
    exact of_reads hw.unbroken hfree hw.token_ne.2 (fun start q =>
      CellScan.reads_lexeme hw rfl start (CellSource.head_ofChars (by decide) hk q)) h

end ReadsAs

/-- What a text is read as. -/
theorem ReadsAs.tokenize {text : String} {us : List Token} (h : ReadsAs text.toList us) :
    ∃ ts, tokenize text = .ok ts ∧ ts.map (·.token) = us := by
  rw [tokenize_eq]
  exact h .start _ (Nat.lt_add_of_pos_right (by decide))

/-! ### Texts of spelled tokens -/

/-- The text of tokens, each spelled and with the gap behind it. -/
def spelled (pieces : List (Token × List Char)) : List Char :=
  pieces.flatMap fun p => p.1.spelling ++ p.2

/-- The tokens that the text of `pieces` is read as. -/
def readTokens (pieces : List (Token × List Char)) : List Token :=
  pieces.flatMap fun p => p.1 :: newlines p.2

/-- The tokens can be spelled, and the gaps are trivia. -/
def Written (pieces : List (Token × List Char)) : Prop :=
  ∀ p ∈ pieces, p.1.Spellable ∧ Trivia true p.2

/-- Every gap between two tokens begins with a blank or a line break. -/
def Separated (pieces : List (Token × List Char)) : Prop :=
  ∀ p ∈ pieces.dropLast, ∃ c ∈ p.2.head?, c ∈ blankChars ∨ breaksLine c

/-- No comment begins right behind a last `/`. -/
def EndsApart (pieces : List (Token × List Char)) : Prop :=
  ∀ p ∈ pieces.getLast?, p.1 = .punctuator .slash → p.2.head? ≠ some '/'

theorem mem_stops_of_separates {c : Char} (hc : c ∈ blankChars ∨ breaksLine c) :
    c ∈ stops ∧ c ≠ '/' ∧ c ≠ '*' := by
  simp only [blankChars, breaksLine, List.mem_cons, List.not_mem_nil, or_false, Bool.or_eq_true,
    beq_iff_eq] at hc
  rcases hc with (rfl | rfl | rfl | rfl) | (rfl | rfl) <;> decide

/-- Trivia begins with a stop. -/
theorem Trivia.head {closed : Bool} {g : List Char} (h : Trivia closed g) :
    ∀ c ∈ g.head?, c ∈ stops := by
  have hslash : '/' ∈ stops := by decide
  cases h with
  | nil =>
    intro c hc
    cases hc
  | blank hc =>
    rintro d ⟨rfl⟩
    exact (mem_stops_of_separates (.inl hc)).1
  | lineBreak hc =>
    rintro d ⟨rfl⟩
    exact (mem_stops_of_separates (.inr hc)).1
  | lineComment | openComment | blockComment =>
    rintro d ⟨rfl⟩
    exact hslash

section

variable {t : Token} {g : List Char} {rest : List (Token × List Char)}

theorem Separated.tail (h : Separated ((t, g) :: rest)) : Separated rest := by
  cases rest with
  | nil =>
    intro p hp
    cases hp
  | cons q rest => exact fun p hp => h p (.tail _ hp)

theorem EndsApart.tail (h : EndsApart ((t, g) :: rest)) : EndsApart rest := by
  cases rest with
  | nil =>
    intro p hp
    cases hp
  | cons q rest => exact fun p hp => h p (by rwa [List.getLast?_cons_cons])

/-- What stands behind a token neither belongs to it nor makes it a comment. -/
theorem head_behind (hg : Trivia true g) (hseparated : Separated ((t, g) :: rest))
    (hends : EndsApart ((t, g) :: rest)) : ∀ c ∈ (g ++ spelled rest).head?,
      c ∈ stops ∧ (t = .punctuator .slash → c ≠ '/' ∧ c ≠ '*') := by
  intro c hc
  cases rest with
  | nil =>
    have hc : c ∈ g.head? := by rwa [spelled, List.flatMap_nil, List.append_nil] at hc
    have hstop := hg.head c hc
    refine ⟨hstop, fun ht => ⟨?_, ?_⟩⟩
    · rintro rfl
      exact hends (t, g) rfl ht hc
    · rintro rfl
      exact absurd hstop (by decide)
  | cons q rest =>
    obtain ⟨d, hd, hseparates⟩ := hseparated (t, g) List.mem_cons_self
    have hfirst : (g ++ spelled (q :: rest)).head? = some d := by
      rw [List.head?_append, show g.head? = some d from hd]
      rfl
    obtain rfl : d = c := by
      rw [hfirst] at hc
      exact Option.some.inj hc
    obtain ⟨hstop, hne⟩ := mem_stops_of_separates hseparates
    exact ⟨hstop, fun _ => hne⟩

end

/-- The text of tokens does not begin with a gap and is read as the tokens and their gaps. -/
theorem readsAs_spelled {pieces : List (Token × List Char)} (hwritten : Written pieces)
    (hseparated : Separated pieces) (hends : EndsApart pieces) :
    GapFree (spelled pieces) ∧ ReadsAs (spelled pieces) (readTokens pieces ++ [.endOfInput]) := by
  induction pieces with
  | nil => exact ⟨trivial, ReadsAs.nil⟩
  | cons p rest ih =>
    obtain ⟨t, g⟩ := p
    obtain ⟨⟨hspell, hg⟩, hwritten⟩ := List.forall_mem_cons.1 hwritten
    obtain ⟨hrest, hreads⟩ := ih hwritten hseparated.tail hends.tail
    have hbehind := head_behind hg hseparated hends
    have hlexeme := hspell.lexeme
    have htext : spelled ((t, g) :: rest) = t.spelling ++ (g ++ spelled rest) := by
      rw [spelled, List.flatMap_cons, List.append_assoc]
      rfl
    have hfree : GapFree (t.spelling ++ (g ++ spelled rest)) :=
      hlexeme.gapFree fun ht d hd => (hbehind d hd).2 ht
    rw [htext, readTokens, List.flatMap_cons, List.cons_append, List.cons_append,
      List.append_assoc]
    exact ⟨hfree, .lexeme hlexeme hfree (fun c hc => (hbehind c hc).1) (.gap hrest hg hreads)⟩

/-- **Spelled tokens are read back.** Trivia stands in front of the tokens and behind each of
them. The text is read as the tokens, with a line break for every trivia that holds one, and the
end. -/
theorem tokenize_spelled {g : List Char} {pieces : List (Token × List Char)}
    (hg : Trivia true g) (hwritten : Written pieces) (hseparated : Separated pieces)
    (hends : EndsApart pieces) :
    ∃ ts, tokenize (String.ofList (g ++ spelled pieces)) = .ok ts ∧
      ts.map (·.token) = newlines g ++ (readTokens pieces ++ [.endOfInput]) := by
  obtain ⟨hfree, hreads⟩ := readsAs_spelled hwritten hseparated hends
  have hgap := hreads.gap hfree hg
  rw [← String.toList_ofList (l := g ++ spelled pieces)] at hgap
  exact hgap.tokenize

/-- A string that holds a line break, and an imaginary number behind two line breaks and a
comment. -/
theorem tokenize_spelled_string :
    ∃ ts, tokenize " \"\\n\"\r//\n1.5j" = .ok ts ∧ ts.map (·.token) =
      [.string "\n", .newline, .number ⟨"1.5j", .decimal⟩, .endOfInput] := by
  let pieces : List (Token × List Char) := [(.string "\n", ['\r', '/', '/', '\n']),
    (.number ⟨"1.5j", .decimal⟩, [])]
  have hg : Trivia true [' '] := .blank (by decide) .nil
  have hcomment : Trivia true ['/', '/', '\n'] :=
    @Trivia.lineComment _ [] _ _ (List.forall_mem_nil _) rfl .nil
  have hnumber : tokenize "1.5j" =
      .ok [⟨.number ⟨"1.5j", .decimal⟩, ⟨1, 1, 0⟩⟩, ⟨.endOfInput, ⟨1, 5, 4⟩⟩] :=
    eq_ok_of_toOption (by decide +kernel)
  have hwritten : Written pieces := List.forall_mem_cons.2 ⟨⟨trivial, .lineBreak rfl hcomment⟩,
    List.forall_mem_singleton.2 ⟨⟨_, _, hnumber, List.mem_cons_self⟩, .nil⟩⟩
  have hseparated : Separated pieces := List.forall_mem_singleton.2 ⟨'\r', rfl, .inr rfl⟩
  have hends : EndsApart pieces := by
    rintro p ⟨rfl⟩ hslash
    cases hslash
  have htext : String.ofList ([' '] ++ spelled pieces) = " \"\\n\"\r//\n1.5j" := by
    decide +kernel
  rw [← htext]
  exact tokenize_spelled hg hwritten hseparated hends

/-- Without `EndsApart` a last `/` may be read as a part of the comment behind it. -/
theorem not_tokenize_spelled_slash :
    ¬ ∀ (g : List Char) (pieces : List (Token × List Char)),
      Trivia true g → Written pieces → Separated pieces →
        ∃ ts, tokenize (String.ofList (g ++ spelled pieces)) = .ok ts ∧
          ts.map (·.token) = newlines g ++ (readTokens pieces ++ [.endOfInput]) := by
  intro h
  have hcomment : Trivia true ['/', '*', '*', '/'] := @Trivia.blockComment _ [] _ (by decide) .nil
  have hwritten : Written [(.punctuator .slash, ['/', '*', '*', '/'])] :=
    List.forall_mem_singleton.2 ⟨trivial, hcomment⟩
  obtain ⟨ts, hts, htokens⟩ := h [] _ .nil hwritten (List.forall_mem_nil _)
  have hread : tokenize (String.ofList
      ([] ++ spelled [(.punctuator .slash, ['/', '*', '*', '/'])])) =
        .ok [⟨.endOfInput, ⟨1, 6, 5⟩⟩] :=
    eq_ok_of_toOption (by decide +kernel)
  rw [hread] at hts
  cases hts
  cases htokens

end DrakeSyntax
