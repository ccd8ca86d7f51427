import DrakeSyntax.Proofs.Layout.Gap

/-!
# Skipping trivia

Trivia is skipped whatever stands behind it. `Gap.Leads w S T` says of a text `w` that skipping
it leads from a state in `S` to one in `T`; a blank, a line break and each end of a comment lead
from one state to the next, and trivia leads back to where it began (`Gap.leads_trivia`).
-/

namespace DrakeSyntax

theorem breaksLine_of_isBlank {c : Char} (h : isBlank c) : breaksLine c = false := by
  simp only [isBlank, Bool.or_eq_true, beq_iff_eq] at h
  rcases h with ((rfl | rfl) | rfl) | rfl <;> rfl

/-- The text does not begin with a gap. -/
def GapFree : List Char → Prop
  | [] => True
  | c :: k => isBlank c = false ∧ breaksLine c = false ∧
      (c = '/' → ∀ d ∈ k.head?, d ≠ '/' ∧ d ≠ '*')

namespace Gap

/-- Skipping `w`, whatever stands behind it, leads from a state in `S` to one in `T`. A break is
remembered if there was one before or one is in `w`. -/
def Leads (w : List Char) (S T : GapState → Prop) : Prop :=
  ∀ state, S state → ∀ firstBreak p k, ∃ state' firstBreak' q, T state' ∧
    firstBreak'.isSome = (firstBreak.isSome || w.any breaksLine) ∧
    (CellSource.ofChars p (w ++ k)).finish = (CellSource.ofChars q k).finish ∧
    skip state firstBreak (CellSource.ofChars p (w ++ k)).cells =
      skip state' firstBreak' (CellSource.ofChars q k).cells

variable {S T U : GapState → Prop} {v w : List Char} {c : Char}

theorem Leads.refl : Leads [] S S := by
  intro state hstate firstBreak p k
  exact ⟨state, firstBreak, p, hstate, by simp, rfl, rfl⟩

theorem Leads.append (hv : Leads v S T) (hw : Leads w T U) : Leads (v ++ w) S U := by
  intro state hstate firstBreak p k
  obtain ⟨state₁, firstBreak₁, q₁, hstate₁, hbreak₁, hfinish₁, hskip₁⟩ :=
    hv state hstate firstBreak p (w ++ k)
  obtain ⟨state₂, firstBreak₂, q₂, hstate₂, hbreak₂, hfinish₂, hskip₂⟩ :=
    hw state₁ hstate₁ firstBreak₁ q₁ k
  refine ⟨state₂, firstBreak₂, q₂, hstate₂, ?_, ?_, ?_⟩
  · rw [hbreak₂, hbreak₁, List.any_append, Bool.or_assoc]
  · rw [List.append_assoc, hfinish₁, hfinish₂]
  · rw [List.append_assoc, hskip₁, hskip₂]

theorem leads_break (hc : breaksLine c) (hS : ∀ state, S state → T state.newline) :
    Leads [c] S T := by
  intro state hstate firstBreak p k
  obtain ⟨q, -, hfinish, hskip⟩ := skip_break state firstBreak hc p k
  refine ⟨state.newline, firstBreak <|> some p, q, hS state hstate, ?_, hfinish, hskip⟩
  cases firstBreak <;> simp [hc]

/-- A character within a line leads where the skipping of its cell leads. -/
theorem leads_char (hc : breaksLine c = false)
    (hS : ∀ state, S state → ∀ p, ∃ state', T state' ∧ ∀ firstBreak cells,
      skip state firstBreak (⟨c, p⟩ :: cells) = skip state' firstBreak cells) :
    Leads [c] S T := by
  intro state hstate firstBreak p k
  obtain ⟨state', hstate', hskip⟩ := hS state hstate p
  refine ⟨state', firstBreak, p.step c, hstate', by simp [hc], ?_, ?_⟩
  · rw [List.singleton_append, CellSource.ofChars_cons hc]
    rfl
  · rw [List.singleton_append, CellSource.ofChars_cons hc]
    exact hskip firstBreak _

/-- Two characters open a comment. -/
theorem leads_open {d : Char} (hd : breaksLine d = false)
    (hS : ∀ p, ∃ state', T state' ∧ ∀ q firstBreak cells,
      skip .plain firstBreak (⟨'/', p⟩ :: ⟨d, q⟩ :: cells) = skip state' firstBreak cells) :
    Leads ['/', d] (· = .plain) T := by
  rintro state rfl firstBreak p k
  obtain ⟨state', hstate', hskip⟩ := hS p
  have hchars : CellSource.ofChars p (['/', d] ++ k) = CellSource.cons ⟨'/', p⟩
      (CellSource.cons ⟨d, p.step '/'⟩ (CellSource.ofChars ((p.step '/').step d) k)) := by
    rw [List.cons_append, CellSource.ofChars_cons rfl, List.singleton_append,
      CellSource.ofChars_cons hd]
  refine ⟨state', firstBreak, (p.step '/').step d, hstate', ?_, ?_, ?_⟩
  · rw [List.any_cons, List.any_cons, hd, show breaksLine '/' = false from rfl]
    simp
  · rw [hchars]
    rfl
  · rw [hchars]
    exact hskip _ firstBreak _

theorem leads_blank (hblank : c ∈ blankChars) : Leads [c] (· = .plain) (· = .plain) := by
  have hc := isBlank_iff.2 hblank
  refine leads_char (breaksLine_of_isBlank hc) ?_
  rintro state rfl p
  refine ⟨.plain, rfl, fun firstBreak cells => ?_⟩
  rw [skip.eq_def]
  exact if_pos hc

theorem leads_line {body : List Char} (hbody : ∀ d ∈ body, breaksLine d = false) :
    Leads body (· = .lineComment) (· = .lineComment) := by
  induction body with
  | nil => exact Leads.refl
  | cons c body ih =>
    obtain ⟨hc, hbody⟩ := List.forall_mem_cons.1 hbody
    refine Leads.append (v := [c]) (leads_char hc ?_) (ih hbody)
    rintro state rfl p
    refine ⟨.lineComment, rfl, fun firstBreak cells => ?_⟩
    rw [skip, if_neg]
    rw [Cell.isBreak_of_breaksLine hc]
    exact Bool.false_ne_true

/-- The skipping is inside a block comment; `star` tells whether a `*` came just before. -/
def InBlock (star : Bool) (state : GapState) : Prop := ∃ start, state = .blockComment start star

/-- A character that neither breaks the line nor closes the comment is skipped in it. -/
theorem leads_inBlock {star : Bool} (hc : breaksLine c = false) (hopen : ¬ (star ∧ c = '/')) :
    Leads [c] (InBlock star) (InBlock (c == '*')) := by
  refine leads_char hc ?_
  rintro state ⟨start, rfl⟩ p
  refine ⟨.blockComment start (c == '*'), ⟨start, rfl⟩, fun firstBreak cells => ?_⟩
  rw [skip, if_neg, if_neg]
  · simpa using hopen
  · rw [Cell.isBreak_of_breaksLine hc]
    exact Bool.false_ne_true

theorem leads_close : Leads ['/'] (InBlock true) (· = .plain) := by
  refine leads_char rfl ?_
  rintro state ⟨start, rfl⟩ p
  exact ⟨.plain, rfl, fun firstBreak cells => rfl⟩

/-- The rest of a block comment is skipped up to its end. -/
theorem leads_block {body : List Char} {star : Bool} (hbody : ¬ ['*', '/'] <:+: body)
    (hopen : ¬ (star ∧ ∃ rest, body = '/' :: rest)) :
    Leads (body ++ ['*', '/']) (InBlock star) (· = .plain) := by
  induction body generalizing star with
  | nil => exact Leads.append (v := ['*']) (leads_inBlock rfl (by simp)) leads_close
  | cons c body ih =>
    rw [GapState.closes_cons, not_or] at hbody
    obtain ⟨hstarts, hbody⟩ := hbody
    have hc : ¬ (star ∧ c = '/') := fun h => hopen ⟨h.1, body, by rw [h.2]⟩
    cases hline : breaksLine c with
    | true =>
      refine Leads.append (v := [c]) (leads_break hline (T := InBlock false) ?_)
        (ih hbody (by simp))
      rintro state ⟨start, rfl⟩
      exact ⟨start, rfl⟩
    | false =>
      refine Leads.append (v := [c]) (leads_inBlock hline hc) (ih hbody ?_)
      exact fun h => hstarts ⟨beq_iff_eq.1 h.1, h.2⟩

/-- **Trivia is skipped.** -/
theorem leads_trivia {closed : Bool} (h : Trivia closed w) (hclosed : closed = true) :
    Leads w (· = .plain) (· = .plain) := by
  induction h with
  | nil => exact Leads.refl
  | blank hc _ ih => exact Leads.append (v := [_]) (leads_blank hc) (ih hclosed)
  | lineBreak hc _ ih =>
    refine Leads.append (v := [_]) (leads_break hc (T := (· = .plain)) ?_) (ih hclosed)
    rintro state rfl
    rfl
  | @lineComment closed body c w hbody hc _ ih =>
    have hopen : Leads ['/', '/'] (· = .plain) (· = .lineComment) :=
      leads_open rfl fun p => ⟨.lineComment, rfl, fun q firstBreak cells => rfl⟩
    have hbreak : Leads [c] (· = .lineComment) (· = .plain) := by
      refine leads_break hc ?_
      rintro state rfl
      rfl
    exact hopen.append ((leads_line hbody).append (hbreak.append (ih hclosed)))
  | openComment => cases hclosed
  | @blockComment closed body w hbody _ ih =>
    have hopen : Leads ['/', '*'] (· = .plain) (InBlock false) :=
      leads_open rfl fun p => ⟨.blockComment p false, ⟨p, rfl⟩, fun q firstBreak cells => rfl⟩
    have hblock := (hopen.append (leads_block hbody (by simp))).append (ih hclosed)
    simpa using hblock

/-- Nothing is skipped where there is no gap. -/
theorem skip_of_gapFree {k : List Char} (h : GapFree k) (firstBreak : Option Position)
    (p : Position) : skip .plain firstBreak (CellSource.ofChars p k).cells =
      ⟨firstBreak, none, (CellSource.ofChars p k).cells⟩ := by
  cases k with
  | nil => rfl
  | cons c k =>
    obtain ⟨hblank, hline, hslash⟩ := h
    have hbreak : Cell.isBreak ⟨c, p⟩ = false := Cell.isBreak_of_breaksLine hline
    rw [CellSource.ofChars_cons hline, CellSource.cons, skip.eq_def]
    simp only [hblank, hbreak, Bool.false_eq_true, if_false]
    split
    · next hc =>
      cases hcells : (CellSource.ofChars (p.step c) k).cells with
      | nil => rfl
      | cons d ds =>
        have hd : d.char ≠ '/' ∧ d.char ≠ '*' := by
          cases hbreak : d.isBreak with
          | true =>
            have hchar : d.char = '\n' := by simpa [Cell.isBreak] using hbreak
            rw [hchar]
            decide
          | false =>
            obtain ⟨k', rfl, -, -⟩ := CellSource.eq_cons_of_ofChars hcells hbreak
            exact hslash hc d.char rfl
        simp only [if_neg hd.1, if_neg hd.2]
    · rfl

end Gap

end DrakeSyntax
