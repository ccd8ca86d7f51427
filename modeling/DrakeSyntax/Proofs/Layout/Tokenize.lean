import DrakeSyntax.Proofs.Cells.Tokenize

/-!
# The tokens of a text

If a text can be read to its end, it is laid out as the tokens that are read
(`tokenize_laidOut`): no character is left out, none is read twice, and every token stands where
it is written. One token is read by one step (`CellScan.token_of_settled`, `CellScan.gap_of_ok`),
and the steps are put together by induction on the number of tokens.
-/

namespace DrakeSyntax

/-- There is no gap at the front of the source. -/
def CellSource.Settled (s : CellSource) : Prop := Gap.leading s.cells = ⟨none, none, s.cells⟩

/-- A line break would be a gap. -/
theorem CellSource.Settled.isBreak {c : Cell} {cs : List Cell} {finish : Position}
    (h : Settled ⟨c :: cs, finish⟩) : c.isBreak = false := by
  by_contra hc
  rw [Bool.not_eq_false] at hc
  have hskip : Gap.leading (c :: cs) = ⟨none, none, c :: cs⟩ := h
  rw [Gap.leading, Gap.skip_break_cell _ _ hc] at hskip
  have hsuffix := Gap.skip_suffix GapState.plain.newline (none <|> some c.position) cs
  rw [hskip] at hsuffix
  have := hsuffix.length_le
  rw [List.length_cons] at this
  omega

namespace CellScan

variable {s s' : CellSource} {offset : Nat} {k : List Char}

theorem gap_of_settled (h : s.Settled) : gap s = .ok none s := by
  rw [gap_run, h]

/-- A gap is trivia, and behind it there is none. -/
theorem gap_of_ok {firstBreak : Option Position} (hs : s.Shows offset k)
    (h : gap s = .ok firstBreak s') : ∃ g k', k = g ++ k' ∧ Trivia (!k'.isEmpty) g ∧
      s'.Shows (offset + byteLength g) k' ∧ s'.Settled ∧
      firstBreak.map Position.offset = breakAt offset g ∧ s'.cells <:+ s.cells := by
  obtain ⟨p, rfl, rfl⟩ := hs
  rw [gap_run] at h
  cases hopen : (Gap.leading (CellSource.ofChars p k).cells).openComment with
  | some start =>
    rw [hopen] at h
    cases h
  | none =>
    rw [hopen] at h
    cases h
    obtain ⟨g, k', hk, hg, hshows, hbreak⟩ := Gap.crossed_skip .plain none p k hopen
    exact ⟨g, k', hk, hg, hshows, Gap.leading_rest hopen, hbreak, Gap.skip_suffix ..⟩

/-- Where there is no gap, a token is the end or is written by a lexeme. -/
theorem token_of_settled {t : PlacedToken} (hs : s.Shows offset k) (hsettled : s.Settled)
    (h : token s = .ok t s') :
    (k = [] ∧ t.token = .endOfInput ∧ t.position.offset = offset) ∨
      ∃ w k', k = w ++ k' ∧ Lexeme w t.token ∧ t.position.offset = offset ∧
        s'.Shows (offset + byteLength w) k' ∧ s'.cells.length < s.cells.length := by
  unfold token at h
  rw [bind_of_ok (gap_of_settled hsettled)] at h
  obtain ⟨_ | ⟨c, cs⟩, finish⟩ := s
  · cases h
    exact .inl ⟨hs.eq_nil rfl, rfl, hs.position_offset⟩
  · change (lexeme c.char c.position >>= fun a => pure (PlacedToken.mk a c.position))
      ⟨c :: cs, finish⟩ = _ at h
    obtain ⟨a, s₁, hlexeme, hpure⟩ := bind_eq_ok h
    cases hpure
    obtain ⟨taken, hcells, rfl, hline, hw⟩ :=
      takes_lexeme hsettled.isBreak c.position a _ hlexeme
    obtain ⟨k', rfl, hr, hshows⟩ := hs.drop hcells hline
    have hw := hw hr
    refine .inr ⟨taken.map Cell.char, k', rfl, hw, hs.position_offset, hshows, ?_⟩
    have htaken : 0 < taken.length := by
      rw [← List.length_map (f := Cell.char)]
      exact List.length_pos_iff.2 hw.ne_nil
    rw [hcells, List.length_append]
    omega

/-- If a gap crosses no line break, the token behind it is scanned. -/
theorem token_of_gap (h : gap s = .ok none s') (hsettled : s'.Settled) : token s = token s' := by
  unfold token
  rw [bind_of_ok h, bind_of_ok (gap_of_settled hsettled)]

/-- A gap that crosses a line break takes a cell. -/
theorem lt_of_break {p : Position} (h : gap s = .ok (some p) s') (hsettled : s'.Settled)
    (hsuffix : s'.cells <:+ s.cells) : s'.cells.length < s.cells.length := by
  refine Nat.lt_of_le_of_ne hsuffix.length_le fun hlength => ?_
  rw [CellSource.Settled, hsuffix.eq_of_length hlength] at hsettled
  rw [gap_of_settled hsettled] at h
  cases h

end CellScan

namespace CellSource

variable {offset : Nat} {k : List Char} {ts : List PlacedToken}

/-- The first of the tokens that are taken, and the others. -/
theorem takeUpTo_eq_ok {n : Nat} {s : CellSource} (h : takeUpTo (n + 1) s = .ok ts) :
    ∃ t s', CellScan.token s = .ok t s' ∧ (t.token = .endOfInput ∧ ts = [t] ∨
      t.token ≠ .endOfInput ∧ ∃ us, takeUpTo n s' = .ok us ∧ ts = t :: us) := by
  rw [takeUpTo] at h
  cases htoken : CellScan.token s with
  | error e s' =>
    rw [htoken] at h
    cases h
  | ok t s' =>
    simp only [htoken] at h
    refine ⟨t, s', rfl, ?_⟩
    split at h
    · next hend =>
      cases h
      exact .inl ⟨hend, rfl⟩
    · next hend =>
      refine .inr ⟨hend, ?_⟩
      cases hus : takeUpTo n s' with
      | error e =>
        rw [hus] at h
        cases h
      | ok us =>
        rw [hus] at h
        cases h
        exact ⟨us, rfl, rfl⟩

theorem takeUpTo_congr {n : Nat} {s s' : CellSource} (h : CellScan.token s = CellScan.token s') :
    takeUpTo (n + 1) s = takeUpTo (n + 1) s' := by
  rw [takeUpTo, takeUpTo, h]

/-- Where there is no gap, the text begins with a lexeme. A lexeme takes a cell, and the text
behind it is laid out by hypothesis. -/
theorem takeUpTo_lexemes {n : Nat} {s : CellSource}
    (ih : ∀ {s : CellSource} {offset : Nat} {k : List Char} {ts : List PlacedToken},
      s.Shows offset k → s.cells.length < n → takeUpTo n s = .ok ts → LaidOut offset k ts)
    (hs : s.Shows offset k) (hn : s.cells.length < n + 1)
    (h : takeUpTo (n + 1) s = .ok ts) (hsettled : s.Settled) : Lexemes offset k ts := by
  obtain ⟨t, s', htoken, hts⟩ := takeUpTo_eq_ok h
  rcases CellScan.token_of_settled hs hsettled htoken with
    ⟨rfl, hend, hoff⟩ | ⟨w, k', rfl, hw, hoff, hshows, hlt⟩
  · obtain ⟨-, rfl⟩ | ⟨hne, -⟩ := hts
    · obtain ⟨token, p⟩ := t
      cases hend
      exact .finish hoff
    · exact absurd hend hne
  · obtain ⟨hend, -⟩ | ⟨-, us, hus, rfl⟩ := hts
    · exact absurd hend hw.token_ne.2
    · obtain ⟨g, k, nl, vs, rfl, hg, hnl, hvs, rfl⟩ := ih hshows (by omega) hus
      exact .lexeme hoff hw hg hnl hvs

/-- **Taking tokens from a text lays it out.** Where there is no gap, it begins with a lexeme. -/
theorem takeUpTo_laidOut {n : Nat} {s : CellSource} (hs : s.Shows offset k) (hn : s.cells.length < n)
    (h : takeUpTo n s = .ok ts) :
    (s.Settled → Lexemes offset k ts) ∧ LaidOut offset k ts := by
  induction n generalizing s offset k ts with
  | zero => cases hn
  | succ n ih =>
    have hbehind {s : CellSource} {offset : Nat} {k : List Char} {ts : List PlacedToken}
        (hs : s.Shows offset k) (hn : s.cells.length < n) (h : takeUpTo n s = .ok ts) :
        LaidOut offset k ts := (ih hs hn h).2
    refine ⟨takeUpTo_lexemes hbehind hs hn h, ?_⟩
    obtain ⟨t, s', htoken, hts⟩ := takeUpTo_eq_ok h
    cases hgap : CellScan.gap s with
    | error e s₁ =>
      unfold CellScan.token at htoken
      obtain ⟨firstBreak, s₂, hok, -⟩ := CellScan.bind_eq_ok htoken
      rw [hgap] at hok
      cases hok
    | ok firstBreak s₁ =>
      obtain ⟨g, k', rfl, hg, hshows, hsettled, hbreak, hsuffix⟩ := CellScan.gap_of_ok hs hgap
      cases firstBreak with
      | none =>
        have hsame : takeUpTo (n + 1) s₁ = .ok ts := by
          rw [takeUpTo_congr (CellScan.token_of_gap hgap hsettled).symm, h]
        have hlt := Nat.lt_of_le_of_lt hsuffix.length_le hn
        have hus := takeUpTo_lexemes hbehind hshows hlt hsame hsettled
        refine ⟨g, k', [], ts, rfl, hg, ?_, hus, rfl⟩
        rw [← hbreak]
        exact rfl
      | some p =>
        rw [CellScan.token_of_break hgap] at htoken
        cases htoken
        obtain ⟨hend, -⟩ | ⟨-, us, hus, rfl⟩ := hts
        · cases hend
        · have hlt := CellScan.lt_of_break hgap hsettled hsuffix
          have hlexemes := (ih hshows (by omega) hus).1 hsettled
          refine ⟨g, k', [⟨.newline, p⟩], us, rfl, hg, ?_, hlexemes, rfl⟩
          rw [← hbreak]
          exact ⟨p, rfl, rfl⟩

/-- The tokens that are taken stand at positions of the source. -/
theorem takeUpTo_within {P : Position → Prop} {n : Nat} {s : CellSource} (hs : s.Within P)
    (h : takeUpTo n s = .ok ts) : ∀ t ∈ ts, P t.position := by
  induction n generalizing s ts with
  | zero =>
    cases h
    intro t ht
    cases ht
  | succ n ih =>
    obtain ⟨t, s', htoken, hts⟩ := takeUpTo_eq_ok h
    have hkeeps := CellScan.keeps_token s hs
    rw [htoken] at hkeeps
    obtain ⟨-, rfl⟩ | ⟨-, us, hus, rfl⟩ := hts
    · exact List.forall_mem_singleton.2 hkeeps.1
    · exact List.forall_mem_cons.2 ⟨hkeeps.1, ih hkeeps.2 hus⟩

/-- The error of a source stands at a position of the source and does not complain about a line
break. -/
theorem takeUpTo_fails {P : Position → Prop} {n : Nat} {s : CellSource} {e : LexError}
    (hs : s.Within P) (h : takeUpTo n s = .error e) : P e.position ∧ e.fault.Shown := by
  induction n generalizing s with
  | zero => cases h
  | succ n ih =>
    have htoken := CellScan.keeps_token s hs
    rw [takeUpTo] at h
    cases hrun : CellScan.token s with
    | error e' s' =>
      simp only [hrun] at h htoken
      cases h
      exact htoken.1
    | ok t s' =>
      simp only [hrun] at h htoken
      split at h
      · cases h
      · cases hrest : takeUpTo n s' with
        | error e' =>
          rw [hrest] at h
          cases h
          exact ih htoken.2 hrest
        | ok ts =>
          rw [hrest] at h
          cases h

end CellSource

/-- A text that can be read is laid out as its tokens. -/
theorem laidOut_of_tokenize {text : String} {ts : List PlacedToken} (h : tokenize text = .ok ts) :
    LaidOut 0 text.toList ts := by
  have hshows : (CellSource.ofString text).Shows 0 text.toList := ⟨.start, rfl, rfl⟩
  rw [tokenize_eq] at h
  exact (CellSource.takeUpTo_laidOut hshows (Nat.lt_add_of_pos_right (by decide)) h).2

/-- **A text that can be read is accounted for.** It is laid out as its tokens: these end with
the one end token, at the end of the text; their offsets increase, no two line breaks are
neighbours, and their positions mark the places of the text at these offsets. -/
theorem tokenize_laidOut {text : String} {ts : List PlacedToken} (h : tokenize text = .ok ts) :
    LaidOut 0 text.toList ts ∧
      (∃ us p, ts = us ++ [⟨.endOfInput, p⟩] ∧ p.offset = text.utf8ByteSize ∧
        ∀ t ∈ us, t.token ≠ .endOfInput) ∧
      ts.Pairwise (fun t u => t.position.offset < u.position.offset) ∧
      ts.IsChain Apart ∧
      ∀ t ∈ ts, t.position.Marks text.toList := by
  have hlaid := laidOut_of_tokenize h
  refine ⟨hlaid, ?_, hlaid.sorted, hlaid.apart, ?_⟩
  · obtain ⟨us, p, hts, hp, hus⟩ := hlaid.ends
    refine ⟨us, p, hts, ?_, hus⟩
    rw [hp, byteLength_toList, Nat.zero_add]
  · rw [tokenize_eq] at h
    exact CellSource.takeUpTo_within (CellSource.within_ofString text) h

theorem eq_ok_of_toOption {ε α : Type} {x : Except ε α} {a : α} (h : x.toOption = some a) :
    x = .ok a := by
  cases x with
  | error e => cases h
  | ok b =>
    cases h
    rfl

/-- A comment between a name and a number holds the line break that stands between them. -/
theorem tokenize_laidOut_comment :
    tokenize "a/*\n*/1_0" = .ok [⟨.identifier "a", ⟨1, 1, 0⟩⟩, ⟨.newline, ⟨1, 4, 3⟩⟩,
      ⟨.number ⟨"10", .decimal⟩, ⟨2, 3, 6⟩⟩, ⟨.endOfInput, ⟨2, 6, 9⟩⟩] ∧
    LaidOut 0 "a/*\n*/1_0".toList [⟨.identifier "a", ⟨1, 1, 0⟩⟩, ⟨.newline, ⟨1, 4, 3⟩⟩,
      ⟨.number ⟨"10", .decimal⟩, ⟨2, 3, 6⟩⟩, ⟨.endOfInput, ⟨2, 6, 9⟩⟩] := by
  have h : tokenize "a/*\n*/1_0" = .ok [⟨.identifier "a", ⟨1, 1, 0⟩⟩, ⟨.newline, ⟨1, 4, 3⟩⟩,
      ⟨.number ⟨"10", .decimal⟩, ⟨2, 3, 6⟩⟩, ⟨.endOfInput, ⟨2, 6, 9⟩⟩] :=
    eq_ok_of_toOption (by decide +kernel)
  exact ⟨h, (tokenize_laidOut h).1⟩

end DrakeSyntax
