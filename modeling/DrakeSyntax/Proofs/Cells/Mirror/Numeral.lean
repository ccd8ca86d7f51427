import DrakeSyntax.Proofs.Cells.Mirror
import DrakeSyntax.Proofs.Layout.Scan

/-!
# Number literals of characters as those of cells

The scans of a number literal add what they take to the text before it, where those of cells return
it. Both take the same (`Scan.mirrors_number`).
-/

namespace DrakeSyntax

namespace CellScan

variable {b : NumberBase} {afterDigit : Bool} {c : Cell} {t : CellSource}

theorem digits_digit (hc : b.accepts c.char) :
    digits b afterDigit (t.cons c) = (do return c.char :: (← digits b true)) t := by
  have hread : DigitRun.read b afterDigit (t.cons c).cells =
      (DigitRun.read b true t.cells).cons c.char := by
    rw [CellSource.cons, DigitRun.read, if_pos hc]
  simp only [Bind.bind, EStateM.bind]
  rw [digits_run, digits_run, hread]
  change (if (DigitRun.read b true t.cells).misplaced = true then _ else _) = _
  split
  · rfl
  · rfl

theorem not_accepts_separator (b : NumberBase) : ¬ b.accepts '_' := by
  cases b <;> decide

theorem digits_separator (hc : c.char = '_')
    (hdigit : (afterDigit && DigitRun.startsWithDigit b t.cells) = true) :
    digits b afterDigit (t.cons c) = digits b false t := by
  have hread : DigitRun.read b afterDigit (t.cons c).cells = DigitRun.read b false t.cells := by
    rw [CellSource.cons, DigitRun.read, hc, if_neg (not_accepts_separator b), if_pos rfl,
      if_pos hdigit]
  rw [digits_run, digits_run, hread]
  rfl

theorem digits_misplaced (hc : c.char = '_')
    (hdigit : ¬ (afterDigit && DigitRun.startsWithDigit b t.cells) = true) :
    digits b afterDigit (t.cons c) = .error ⟨.misplacedSeparator, c.position⟩ (t.cons c) := by
  have hread : DigitRun.read b afterDigit (t.cons c).cells = ⟨[], true, (t.cons c).cells⟩ := by
    rw [CellSource.cons, DigitRun.read, hc, if_neg (not_accepts_separator b), if_pos rfl,
      if_neg hdigit]
  rw [digits_run, hread]
  rfl

/-- Where no digit and no separator stands, there are no digits. -/
theorem digits_none (h : ∀ c ∈ t.cells.head?, ¬ b.accepts c.char ∧ c.char ≠ '_') :
    digits b afterDigit t = .ok [] t := by
  have hread : DigitRun.read b afterDigit t.cells = ⟨[], false, t.cells⟩ := by
    cases hcells : t.cells with
    | nil => rfl
    | cons c cs =>
      obtain ⟨hc, hsep⟩ := h c (by rw [hcells]; rfl)
      rw [DigitRun.read, if_neg hc, if_neg hsep]
  rw [digits_run, hread]
  rfl

end CellScan

/-- A test that no line break passes is passed by the first cell if it is passed by the first
character. -/
theorem Source.any_head_asCells {q : Char → Bool} (hn : q '\n' = false) (hr : q '\r' = false)
    (s : Source) : s.asCells.cells.head?.any (fun c => q c.char) = s.chars.head?.any q := by
  cases s.front with
  | atEnd hend cells =>
    rw [cells, List.isEmpty_iff.1 hend]
    rfl
  | lineBreak hend hbreak cells =>
    rw [cells]
    obtain ⟨_ | ⟨c, cs⟩, p⟩ := s
    · exact absurd rfl hend
    have hbreak : breaksLine c := hbreak
    obtain rfl | rfl : c = '\n' ∨ c = '\r' := by simpa [breaksLine] using hbreak
    · rfl
    · exact hn.trans hr.symm
  | char hend _ cells =>
    rw [cells]
    obtain ⟨_ | ⟨c, cs⟩, p⟩ := s
    · exact absurd rfl hend
    · rfl

namespace Scan

variable {b : NumberBase}

/-- A digit is a character of its line. -/
theorem inLine_of_accepts {s : Source} (h : b.accepts s.peek) :
    ¬ s.atEnd ∧ breaksLine s.peek = false :=
  Source.inLine_of_peek (q := b.accepts) (by cases b <;> rfl) (by cases b <;> rfl)
    (by cases b <;> rfl) h

/-- What stands behind a separator is looked at. -/
theorem startsWithDigit_eq (b : NumberBase) {s : Source} (hend : ¬ s.atEnd) :
    s.peekNext?.any b.accepts = DigitRun.startsWithDigit b s.advance.asCells.cells := by
  rw [DigitRun.startsWithDigit,
    Source.any_head_asCells (by cases b <;> rfl) (by cases b <;> rfl), Source.peekNext?_eq hend]

theorem mirrors_digits (b : NumberBase) (text : List Char) (afterDigit : Bool) :
    Mirrors (text ++ ·) (digits b text afterDigit) (CellScan.digits b afterDigit) := by
  intro s
  unfold MirrorsAt digits
  fun_induction digitRun b text afterDigit s with
  | case1 text afterDigit s hend =>
    rw [Source.asCells_of_atEnd hend]
    exact .ok (List.append_nil text).symm (Source.asCells_of_atEnd hend) (.refl s)
  | case2 text afterDigit s hend hdigit ih =>
    obtain ⟨-, hline⟩ := inLine_of_accepts hdigit
    rw [Source.asCells_advance hend hline,
      CellScan.digits_digit (c := ⟨s.peek, s.position⟩) hdigit]
    refine (ih.map fun ds => ?_).of_follows (Source.follows_advance hend hline)
    simp
  | case3 text afterDigit s hend hdigit hsep hmisplaced =>
    have hsep : s.peek = '_' := beq_iff_eq.1 hsep
    have hline : breaksLine s.peek = false := by rw [hsep]; rfl
    rw [startsWithDigit_eq b hend] at hmisplaced
    have hdigit : ¬ (afterDigit && DigitRun.startsWithDigit b s.advance.asCells.cells) = true := by
      cases afterDigit <;> simp_all
    have hfails : CellScan.digits b afterDigit s.asCells =
        .error ⟨.misplacedSeparator, s.position⟩ s.asCells := by
      rw [Source.asCells_advance hend hline]
      exact CellScan.digits_misplaced hsep hdigit
    rw [hfails]
    exact .error rfl (.refl s)
  | case4 text afterDigit s hend hdigit hsep hplaced ih =>
    have hsep : s.peek = '_' := beq_iff_eq.1 hsep
    have hline : breaksLine s.peek = false := by rw [hsep]; rfl
    rw [startsWithDigit_eq b hend] at hplaced
    rw [Source.asCells_advance hend hline,
      CellScan.digits_separator hsep (by simpa using hplaced)]
    exact ih.of_follows (Source.follows_advance hend hline)
  | case5 text afterDigit s hend hdigit hsep =>
    have hnone : ∀ c ∈ s.asCells.cells.head?, ¬ b.accepts c.char ∧ c.char ≠ '_' :=
      Source.head_asCells (P := fun c => ¬ b.accepts c ∧ c ≠ '_') (by cases b <;> decide)
        fun _ => ⟨hdigit, fun h => hsep (beq_iff_eq.2 h)⟩
    rw [CellScan.digits_none hnone]
    exact .ok (List.append_nil text).symm rfl (.refl s)

theorem invalidDigit_bind {α β γ δ : Type} {s : Source} {g : δ → γ} {k : α → Scan γ}
    {l : β → CellScan δ} :
    MirrorsAt s g (invalidDigit b >>= k) (CellScan.failHere (.invalidDigit s.peek b) >>= l) := by
  have h : MirrorsAt s g (failHere (.invalidDigit s.peek b) : Scan γ)
      (CellScan.failHere (.invalidDigit s.peek b)) := .failHere
  exact h

/-- A number does not touch what stands behind it. -/
theorem mirrors_endNumber (b : NumberBase) :
    Mirrors id (endNumber b) (CellScan.endNumber b) := by
  intro s
  let q (c : Char) : Bool := Text.isAlphanumeric c || c == '_'
  refine MirrorsAt.peek_bind (MirrorsAt.atEnd_bind (MirrorsAt.ahead_bind ?_))
  split
  · next hglued =>
    have hglued : q s.peek := (Bool.and_eq_true_iff.1 hglued).2
    obtain ⟨hend, hline⟩ := Source.inLine_of_peek rfl rfl rfl hglued
    rw [Source.asCells_advance hend hline]
    change MirrorsAt s id _ (if q s.peek then _ else _)
    rw [if_pos hglued]
    exact .failHere
  · next hglued =>
    have hnone : ∀ c ∈ s.asCells.cells.head?, ¬ q c.char :=
      Source.head_asCells (P := fun c => ¬ q c) (by decide +kernel) fun hend hpeek =>
        hglued (Bool.and_eq_true_iff.2 ⟨by simpa using hend, hpeek⟩)
    cases hcells : s.asCells.cells with
    | nil => exact .pure rfl
    | cons c cs =>
      change MirrorsAt s id _ (if q c.char then _ else _)
      rw [if_neg (hnone c (by rw [hcells]; rfl))]
      exact .pure rfl

theorem mirrors_markedNumber (b : NumberBase) (start : Position) :
    Mirrors id (markedNumber b start) (CellScan.markedNumber b start) := by
  refine (mirrors_digits b [] true).bind fun ds s => ?_
  rw [List.nil_append]
  split
  · refine MirrorsAt.peek_bind (MirrorsAt.ahead_bind ?_)
    split
    · next hletter =>
      obtain ⟨hend, hline⟩ := Source.inLine_of_peek (q := Char.isAlphanum) rfl rfl rfl hletter
      rw [Source.asCells_advance hend hline]
      change MirrorsAt s id _ (if s.peek.isAlphanum then _ else _)
      rw [if_pos hletter]
      exact invalidDigit_bind
    · next hletter =>
      have hnone : ∀ c ∈ s.asCells.cells.head?, ¬ c.char.isAlphanum :=
        Source.head_asCells (P := fun c => ¬ c.isAlphanum) (by decide) fun _ => hletter
      cases hcells : s.asCells.cells with
      | nil => exact .failAt_bind
      | cons c cs =>
        change MirrorsAt s id _ (if c.char.isAlphanum then _ else _)
        rw [if_neg (hnone c (by rw [hcells]; rfl))]
        exact .failAt_bind
  · exact (mirrors_endNumber b s).bind fun _ _ _ => .pure rfl

section

variable {q : Char → Bool} {s : Source}

theorem takeIf_asCells (hend : ¬ s.atEnd) (hline : breaksLine s.peek = false) (hq : q s.peek) :
    CellScan.takeIf q s.asCells = .ok [s.peek] s.advance.asCells := by
  rw [Source.asCells_advance hend hline]
  exact if_pos hq

theorem takeIf_asCells_none (hn : q '\n' = false) (hq : ¬ q s.peek) :
    CellScan.takeIf q s.asCells = .ok [] s.asCells := by
  have hnone : ∀ c ∈ s.asCells.cells.head?, ¬ q c.char :=
    Source.head_asCells (P := fun c => ¬ q c) (by simp [hn]) fun _ => hq
  unfold CellScan.takeIf
  cases hcells : s.asCells.cells with
  | nil => rfl
  | cons c cs => exact if_neg (hnone c (by rw [hcells]; rfl))

end

/-- A sign or a suffix is taken if it is there. -/
theorem mirrors_takeIf {q : Char → Bool} (hn : q '\n' = false) (hr : q '\r' = false)
    (h0 : q '\x00' = false) (text : List Char) :
    Mirrors (text ++ ·)
      (do
        let c ← peek
        if q c then return text ++ [← advance] else return text)
      (CellScan.takeIf q) := by
  intro s
  refine MirrorsAt.peek_bind ?_
  split
  · next hq =>
    obtain ⟨hend, hline⟩ := Source.inLine_of_peek hn hr h0 hq
    unfold MirrorsAt
    rw [takeIf_asCells hend hline hq]
    exact .ok rfl rfl (Source.follows_advance hend hline)
  · next hq =>
    unfold MirrorsAt
    rw [takeIf_asCells_none hn hq]
    exact .ok (List.append_nil text).symm rfl (.refl s)

/-- If a point and a digit are the first two cells, they are the first two characters. -/
theorem point_of_front {s : Source} {d : Char} {tail : List Char}
    (h : (s.asCells.cells.take 2).map Cell.char = '.' :: d :: tail) (hd : d.isDigit) :
    (s.peek == '.' && s.peekNext?.any Char.isDigit) = true := by
  cases s.front with
  | atEnd _ cells =>
    rw [cells] at h
    cases h
  | lineBreak _ _ cells =>
    rw [cells] at h
    cases h
  | char hend _ cells =>
    rw [cells, CellSource.cons] at h
    obtain ⟨hdot, hbehind⟩ := List.cons.inj h
    have hdot : s.peek = '.' := hdot
    have hnext : s.peekNext?.any Char.isDigit = true := by
      rw [Source.peekNext?_eq hend, ← Source.any_head_asCells rfl rfl]
      cases hcells : s.advance.asCells.cells with
      | nil =>
        rw [hcells] at hbehind
        cases hbehind
      | cons c cs =>
        rw [hcells] at hbehind
        cases hbehind
        exact hd
    rw [hdot, hnext]
    rfl

theorem mirrors_fraction (text : List Char) :
    Mirrors (text ++ ·) (fraction text) CellScan.fraction := by
  intro s
  refine MirrorsAt.peek_bind (MirrorsAt.peekNext?_bind (MirrorsAt.ahead_bind ?_))
  split
  · next hpoint =>
    obtain ⟨hdot, hnext⟩ := Bool.and_eq_true_iff.1 hpoint
    have hdot : s.peek = '.' := beq_iff_eq.1 hdot
    have hline : breaksLine s.peek = false := by rw [hdot]; rfl
    have hend : ¬ s.atEnd :=
      (Source.inLine_of_peek (q := (· == '.')) rfl rfl rfl (by simp [hdot])).1
    obtain ⟨d, hd, hdigit⟩ := Option.any_eq_true _ _ |>.1 hnext
    have hd' : breaksLine d = false := breaksLine_of_test (q := Char.isDigit) rfl rfl hdigit
    rw [(Source.asCells_advance_advance hend hline hd hd').1, hdot]
    change MirrorsAt s _ _ (if d.isDigit then _ else _)
    rw [if_pos hdigit]
    refine MirrorsAt.advance_bind hend hline ?_
    refine MirrorsAt.map (mirrors_digits .decimal _ false _) ?_
    simp [hdot]
  · next hpoint =>
    split
    · next d tail hfront =>
      have hdigit : ¬ d.isDigit := fun hd => hpoint (point_of_front hfront hd)
      rw [if_neg hdigit]
      exact .pure (List.append_nil text).symm
    · exact .pure (List.append_nil text).symm

/-- Behind the mark of an exponent and its sign there is a digit. -/
theorem mirrors_exponentDigits (text : List Char) (mark : Char) (sign : List Char) :
    Mirrors (text ++ ·)
      (do
        if !(← peek).isDigit || (← atEnd) then failHere .missingExponent
        digits .decimal (text ++ [mark] ++ sign) false)
      (do
        match ← CellScan.ahead 1 with
        | c :: _ => if !c.isDigit then CellScan.failHere .missingExponent
        | [] => CellScan.failHere .missingExponent
        return [mark] ++ sign ++ (← CellScan.digits .decimal false)) := by
  intro s
  refine MirrorsAt.peek_bind (MirrorsAt.atEnd_bind (MirrorsAt.ahead_bind ?_))
  split
  · next hmissing =>
    have hnone : ∀ c ∈ s.asCells.cells.head?, (!c.char.isDigit) = true :=
      Source.head_asCells (P := fun c => (!c.isDigit) = true) rfl fun hend => by
        simpa [hend] using hmissing
    cases hcells : s.asCells.cells with
    | nil => exact .failHere_bind
    | cons c cs =>
      change MirrorsAt s _ _ (if (!c.char.isDigit) = true then _ else _)
      rw [if_pos (hnone c (by rw [hcells]; rfl))]
      exact .failHere_bind
  · next hdigit =>
    have hdigit : s.peek.isDigit := by
      rw [Bool.or_eq_true, not_or] at hdigit
      simpa using hdigit.1
    obtain ⟨hend, hline⟩ := Source.inLine_of_peek (q := Char.isDigit) rfl rfl rfl hdigit
    rw [Source.asCells_advance hend hline]
    change MirrorsAt s _ _ (if (!s.peek.isDigit) = true then _ else _)
    rw [if_neg (by simp [hdigit])]
    refine MirrorsAt.map (mirrors_digits .decimal _ false s) fun ds => ?_
    simp

/-- An exponent has a mark, perhaps a sign, and a digit at least. -/
theorem mirrors_exponent (text : List Char) :
    Mirrors (text ++ ·) (exponent text) CellScan.exponent := by
  intro s
  let mark (c : Char) : Bool := c == 'e' || c == 'E'
  refine MirrorsAt.peek_bind ?_
  split
  · next hmark =>
    obtain ⟨hend, hline⟩ := Source.inLine_of_peek (q := mark) rfl rfl rfl hmark
    have hsign : MirrorsAt s.advance (text ++ [s.peek] ++ ·) (sign (text ++ [s.peek]))
        (CellScan.takeIf fun c => c == '+' || c == '-') :=
      mirrors_takeIf rfl rfl rfl _ s.advance
    unfold MirrorsAt CellScan.exponent
    rw [CellScan.bind_of_ok (takeIf_asCells (q := mark) hend hline hmark)]
    refine Mirrored.of_follows ?_ (Source.follows_advance hend hline)
    exact hsign.bind fun sign s₁ _ => mirrors_exponentDigits text s.peek sign s₁
  · next hmark =>
    unfold MirrorsAt CellScan.exponent
    rw [CellScan.bind_of_ok (takeIf_asCells_none (q := mark) rfl hmark)]
    exact .ok (List.append_nil text).symm rfl (.refl s)

theorem mirrors_decimalNumber (first : Char) :
    Mirrors id (decimalNumber first) (CellScan.decimalNumber first) := by
  refine (mirrors_digits .decimal [first] true).bind fun whole => ?_
  refine (mirrors_fraction _).bind fun fraction => ?_
  refine (mirrors_exponent _).bind fun exponent => ?_
  refine (mirrors_takeIf (q := fun c => c == 'j' || c == 'J') rfl rfl rfl _).bind fun suffix s => ?_
  refine (mirrors_endNumber _ s).bind fun _ _ _ => .pure ?_
  simp

theorem mirrors_number (first : Char) (start : Position) :
    Mirrors id (number first start) (CellScan.number first start) := by
  intro s
  have hdecimal := mirrors_decimalNumber first s
  refine MirrorsAt.ahead_bind ?_
  unfold number
  split
  · next hzero =>
    obtain rfl : first = '0' := beq_iff_eq.1 hzero
    refine MirrorsAt.peek_bind ?_
    cases hletter : NumberBase.ofLetter? s.peek with
    | some b =>
      obtain ⟨hend, hline⟩ := Source.inLine_of_peek (q := fun c => (NumberBase.ofLetter? c).isSome)
        rfl rfl rfl (by rw [hletter]; rfl)
      have hfront : ((s.asCells.cells.take 1).map Cell.char).head?.bind NumberBase.ofLetter? =
          some b := by
        rw [Source.asCells_advance hend hline]
        exact hletter
      rw [hfront]
      change MirrorsAt s id (advance >>= fun _ => markedNumber b start)
        (CellScan.skip 1 >>= fun _ => CellScan.markedNumber b start)
      exact .advance_bind hend hline (mirrors_markedNumber b start s.advance)
    | none =>
      have hnone : ∀ c ∈ s.asCells.cells.head?, NumberBase.ofLetter? c.char = none :=
        Source.head_asCells (P := fun c => NumberBase.ofLetter? c = none) rfl fun _ => hletter
      have hfront : ((s.asCells.cells.take 1).map Cell.char).head?.bind NumberBase.ofLetter? =
          none := by
        cases hcells : s.asCells.cells with
        | nil => rfl
        | cons c cs => exact hnone c (by rw [hcells]; rfl)
      rw [hfront]
      exact hdecimal
  · next hzero =>
    split
    · exact absurd rfl hzero
    · exact hdecimal

end Scan

end DrakeSyntax
