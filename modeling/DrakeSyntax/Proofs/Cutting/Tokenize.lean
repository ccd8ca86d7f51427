import DrakeSyntax.Proofs.Cutting.Gap
import DrakeSyntax.Proofs.Layout.Tokenize

/-!
# Reading on from any source

What is read of a source is determined by the gap at its front and the lexeme behind it: a gap is
read as its first line break (`CellSource.tokens_of_gap`), clear cells as a lexeme and what is left
behind it (`CellSource.tokens_of_clear`). These equations hold of every source, whether a text is
read as it or not, so that they can be used on both sides of a cut.
-/

namespace DrakeSyntax

variable {s s' : CellSource} {c : Cell} {cs cells : List Cell} {finish : Position} {e : LexError}

namespace CellScan

theorem gap_of_leading {b : Option Position} {rest : List Cell}
    (h : Gap.leading s.cells = ⟨b, none, rest⟩) : gap s = .ok b ⟨rest, s.finish⟩ := by
  rw [gap_run, h]

theorem gap_of_open {start : Position} (h : (Gap.leading s.cells).openComment = some start) :
    ∃ s', gap s = .error ⟨.unterminatedComment, start⟩ s' := by
  rw [gap_run, h]
  exact ⟨_, rfl⟩

/-- A gap without a line break makes no difference. -/
theorem token_of_leading {rest : List Cell} (h : Gap.leading s.cells = ⟨none, none, rest⟩) :
    token s = token ⟨rest, s.finish⟩ := by
  have hskip : Gap.skip .plain none s.cells = ⟨none, none, rest⟩ := h
  have hsettled := Gap.leading_rest (congrArg Gap.openComment hskip)
  rw [hskip] at hsettled
  exact token_of_gap (gap_of_leading h) hsettled

/-- Where there is no gap, a lexeme is scanned. -/
theorem token_of_clear (h : Gap.Clear (c :: cs)) (finish : Position) :
    token ⟨c :: cs, finish⟩ =
      match lexeme c.char c.position ⟨c :: cs, finish⟩ with
      | .ok t s' => .ok ⟨t, c.position⟩ s'
      | .error e s' => .error e s' := by
  have hgap : gap ⟨c :: cs, finish⟩ = .ok none ⟨c :: cs, finish⟩ := gap_of_leading (h.skip none)
  unfold token
  rw [bind_of_ok hgap]
  change (lexeme c.char c.position >>= fun t => pure (PlacedToken.mk t c.position)) _ = _
  cases hrun : lexeme c.char c.position ⟨c :: cs, finish⟩ with
  | ok t s' => exact bind_of_ok hrun
  | error e s' => exact bind_of_error hrun

end CellScan

theorem map_map_except {ε α β γ : Type} (f : α → β) (g : β → γ) (x : Except ε α) :
    (x.map f).map g = x.map fun a => g (f a) := by
  cases x <;> rfl

theorem exists_of_map_eq_ok {ε α β : Type} {f : α → β} {x : Except ε α} {b : β}
    (h : x.map f = .ok b) : ∃ a, x = .ok a ∧ f a = b := by
  cases x with
  | error e => cases h
  | ok a =>
    cases h
    exact ⟨a, rfl, rfl⟩

theorem eq_error_of_map {ε α β : Type} {f : α → β} {x : Except ε α} {e : ε}
    (h : x.map f = .error e) : x = .error e := by
  cases x with
  | error e' =>
    cases h
    rfl
  | ok a => cases h

namespace CellSource

/-- What a gap is read as, `b` being its first line break. -/
def newlineAt (b : Option Position) : List PlacedToken := (b.map (⟨.newline, ·⟩)).toList

/-- A gap is read as its first line break. -/
theorem tokens_of_gap {b : Option Position} {rest : List Cell}
    (h : Gap.leading s.cells = ⟨b, none, rest⟩) : s.tokens =
      (tokens ⟨rest, s.finish⟩).map (newlineAt b ++ ·) := by
  cases b with
  | none =>
    rw [tokens_eq s, tokens_eq ⟨rest, s.finish⟩, CellScan.token_of_leading h]
    cases CellScan.token ⟨rest, s.finish⟩ with
    | error e s' => rfl
    | ok t s' =>
      simp only
      split
      · rfl
      · cases s'.tokens <;> rfl
  | some p =>
    rw [tokens_eq, CellScan.token_of_break (CellScan.gap_of_leading h)]
    rfl

theorem tokens_of_open {start : Position}
    (h : (Gap.leading s.cells).openComment = some start) :
    s.tokens = .error ⟨.unterminatedComment, start⟩ := by
  obtain ⟨s', hgap⟩ := CellScan.gap_of_open h
  have htoken : CellScan.token s = .error ⟨.unterminatedComment, start⟩ s' :=
    CellScan.bind_of_error hgap
  rw [tokens_eq, htoken]

/-- Clear cells are read as a lexeme and what is left behind it. -/
theorem tokens_of_clear (h : Gap.Clear (c :: cs)) (finish : Position) :
    (tokens ⟨c :: cs, finish⟩) =
      match CellScan.lexeme c.char c.position ⟨c :: cs, finish⟩ with
      | .ok t s' => s'.tokens.map (⟨t, c.position⟩ :: ·)
      | .error e _ => .error e := by
  rw [tokens_eq, CellScan.token_of_clear h]
  cases hrun : CellScan.lexeme c.char c.position ⟨c :: cs, finish⟩ with
  | error e s' => rfl
  | ok t s' => exact if_neg (CellScan.lexeme_token_ne hrun).2

/-- A gap and the lexeme behind it are read. -/
theorem tokens_of_lexeme {b : Option Position} {t : Token}
    (hgap : Gap.leading s.cells = ⟨b, none, c :: cs⟩) (hclear : Gap.Clear (c :: cs))
    (hrun : CellScan.lexeme c.char c.position ⟨c :: cs, s.finish⟩ = .ok t s') :
    s.tokens =
      s'.tokens.map ((newlineAt b ++ [⟨t, c.position⟩]) ++ ·) := by
  rw [tokens_of_gap hgap, tokens_of_clear hclear, hrun]
  simp only [map_map_except, List.append_assoc, List.singleton_append]

/-- The lexeme behind a gap cannot be scanned. -/
theorem tokens_of_lexeme_error {b : Option Position}
    (hgap : Gap.leading s.cells = ⟨b, none, c :: cs⟩) (hclear : Gap.Clear (c :: cs))
    (hrun : CellScan.lexeme c.char c.position ⟨c :: cs, s.finish⟩ = .error e s') :
    s.tokens = .error e := by
  rw [tokens_of_gap hgap, tokens_of_clear hclear, hrun]
  rfl

end CellSource

end DrakeSyntax
