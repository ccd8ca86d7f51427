import DrakeSyntax.Proofs.Cells.Mirror.Token
import DrakeSyntax.Proofs.Cutting

/-!
# Reading a text as reading its cells

Since tokens are scanned alike, so is a whole text: its tokens are those of its cells
(`tokenize_eq`). And as a token of cells takes a cell, unless it is the end, a token of characters
takes a character (`Scan.token_cases`).
-/

namespace DrakeSyntax

namespace CellSource

theorem length_cells_ofChars (p : Position) (cs : List Char) :
    (ofChars p cs).cells.length ≤ cs.length := by
  fun_induction ofChars p cs with
  | case1 => exact Nat.le_refl _
  | case2 | case3 | case4 | case5 =>
    simp only [cons, List.length_cons]
    omega

/-- How many cells a text has does not depend on where it stands. -/
theorem length_cells_eq (p q : Position) (cs : List Char) :
    (ofChars p cs).cells.length = (ofChars q cs).cells.length := by
  fun_induction ofChars p cs generalizing q with
  | case1 => rfl
  | case2 p cs ih => exact congrArg (· + 1) (ih (q.nextLine 2))
  | case3 p cs hn ih =>
    rw [ofChars.eq_3 _ _ hn]
    exact congrArg (· + 1) (ih (q.nextLine 1))
  | case4 p cs ih => exact congrArg (· + 1) (ih (q.nextLine 1))
  | case5 p c cs hrn hr hn ih =>
    have hc : breaksLine c = false := by simpa [breaksLine] using ⟨hn, hr⟩
    rw [ofChars_cons hc]
    exact congrArg (· + 1) (ih (q.step c))

end CellSource

namespace Source

variable {s s' s₁ : Source}

/-- The position of the end. -/
def finish (s : Source) : Position := s.asCells.finish

theorem Follows.finish_eq (h : s'.Follows s) : s'.finish = s.finish := h.finish

/-- The end is what is left behind all characters. -/
theorem follows_finish (s : Source) : Follows ⟨[], s.finish⟩ s :=
  ⟨⟨s.chars, (List.append_nil _).symm, CellSource.finish_offset_ofChars s.position s.chars⟩, rfl⟩

/-- The source is what is left of the other one behind at least one character. -/
structure Past (s' s : Source) : Prop extends s'.Follows s where
  lt : s'.chars.length < s.chars.length

theorem Past.offset_lt (h : s'.Past s) : s.position.offset < s'.position.offset := by
  obtain ⟨⟨⟨taken, hchars, hoffset⟩, -⟩, hlt⟩ := h
  have htaken : taken ≠ [] := by
    rintro rfl
    rw [hchars] at hlt
    exact absurd hlt (Nat.lt_irrefl _)
  have := byteLength_pos htaken
  omega

/-- A scan that takes a cell takes a character. -/
theorem past_of_cells (h : s'.Follows s)
    (hlt : s'.asCells.cells.length < s.asCells.cells.length) : s'.Past s := by
  refine ⟨h, Nat.lt_of_le_of_ne h.length_le fun hlength => ?_⟩
  obtain ⟨taken, hchars, -⟩ := h.chars
  have htaken : taken = [] := by
    rw [hchars, List.length_append] at hlength
    exact List.length_eq_zero_iff.1 (by omega)
  rw [htaken, List.nil_append] at hchars
  have hcells := CellSource.length_cells_eq s.position s'.position s.chars
  rw [hchars] at hcells
  unfold asCells at hlt
  rw [hchars, hcells] at hlt
  exact absurd hlt (Nat.lt_irrefl _)

theorem eq_of_asCells_nil {finish : Position} (h : s.asCells = ⟨[], finish⟩) :
    s = ⟨[], finish⟩ := by
  cases s.front with
  | atEnd hend cells =>
    rw [cells] at h
    cases h
    obtain ⟨cs, p⟩ := s
    obtain rfl := List.isEmpty_iff.1 hend
    rfl
  | lineBreak _ _ cells =>
    rw [cells] at h
    cases h
  | char _ _ cells =>
    rw [cells] at h
    cases h

end Source

namespace Scan

/-- **A token, an error, or the end.** The first two take a character. -/
theorem token_cases (s : Source) :
    token s = .ok ⟨.endOfInput, s.finish⟩ ⟨[], s.finish⟩ ∨
      (∃ t s', token s = .ok t s' ∧ t.token ≠ .endOfInput ∧ s'.Past s) ∨
      ∃ e s', token s = .error e s' ∧ s'.Past s := by
  have htoken : Mirrored s id (token s) (CellScan.token s.asCells) := mirrors_token s
  generalize hrun : token s = r at htoken
  rcases CellScan.token_cases s.asCells with hend | ⟨t, s', ht, hne, hpast⟩ | ⟨e, s', he, hpast⟩
  · rw [hend] at htoken
    cases htoken with
    | ok value cells follows =>
      cases value
      rw [Source.eq_of_asCells_nil cells]
      exact .inl rfl
  · rw [ht] at htoken
    cases htoken with
    | ok value cells follows =>
      cases value
      subst cells
      exact .inr (.inl ⟨_, _, rfl, hne, Source.past_of_cells follows hpast.2.2⟩)
  · rw [he] at htoken
    cases htoken with
    | error cells follows =>
      subst cells
      exact .inr (.inr ⟨_, _, rfl, Source.past_of_cells follows hpast.2.2⟩)

/-- A token is scanned up to where its cells end. -/
theorem token_of_cells {s s₁ : Source} {t : PlacedToken} (h₁ : s₁.Follows s)
    (h : CellScan.token s.asCells = .ok t s₁.asCells) : token s = .ok t s₁ := by
  have htoken : Mirrored s id (token s) (CellScan.token s.asCells) := mirrors_token s
  rw [h] at htoken
  generalize token s = r at htoken
  cases htoken with
  | ok value cells follows =>
    cases value
    rw [follows.eq_of_asCells h₁ cells]
    rfl

theorem token_of_cells_error {s : Source} {e : LexError} {c : CellSource}
    (h : CellScan.token s.asCells = .error e c) : ∃ s', token s = .error e s' := by
  have htoken : Mirrored s id (token s) (CellScan.token s.asCells) := mirrors_token s
  rw [h] at htoken
  generalize token s = r at htoken
  cases htoken with
  | error cells follows => exact ⟨_, rfl⟩

/-- Behind the last character there is only the end. -/
theorem token_nil (finish : Position) :
    token ⟨[], finish⟩ = .ok ⟨.endOfInput, finish⟩ ⟨[], finish⟩ := by
  rcases token_cases ⟨[], finish⟩ with hend | ⟨t, s', -, -, hpast⟩ | ⟨e, s', -, hpast⟩
  · exact hend
  · exact absurd hpast.lt (Nat.not_lt_zero _)
  · exact absurd hpast.lt (Nat.not_lt_zero _)

end Scan

namespace TokenStream

/-- Tokens are read as those of the cells. -/
theorem takeUpTo_asCells (n : Nat) (s : Source) :
    takeUpTo n ⟨s, none⟩ = s.asCells.takeUpTo n := by
  induction n generalizing s with
  | zero => rfl
  | succ n ih =>
    have htoken : Scan.Mirrored s id (Scan.token s) (CellScan.token s.asCells) :=
      Scan.mirrors_token s
    rw [takeUpTo, CellSource.takeUpTo, next]
    generalize Scan.token s = r at htoken
    generalize CellScan.token s.asCells = r' at htoken
    cases htoken with
    | ok value cells follows =>
      cases value
      subst cells
      simp only [ih, id]
    | error => rfl

theorem rest_asCells (s : Source) : (ofSource s).rest = s.asCells.tokens := by
  have hle := CellSource.length_cells_ofChars s.position s.chars
  rw [rest, ofSource, takeUpTo_asCells]
  exact CellSource.takeUpTo_eq _ (Nat.lt_of_le_of_lt hle (Nat.lt_add_of_pos_right Nat.two_pos))
    (Nat.lt_add_of_pos_right Nat.two_pos)

end TokenStream

/-- **The tokens of a text are those of its cells.** -/
theorem tokenize_eq (text : String) : tokenize text = (CellSource.ofString text).tokens :=
  TokenStream.rest_asCells (.ofString text)

end DrakeSyntax
