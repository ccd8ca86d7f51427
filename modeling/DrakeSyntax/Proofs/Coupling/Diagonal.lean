import DrakeSyntax.Proofs.Coupling.Expression
import DrakeSyntax.Proofs.Runs.Session

/-!
# A run beside itself

A run belongs together with itself, so what holds of coupled runs says something of a single one
(`Coupling.diagonal`): the tokens that a phrase takes are balanced (`Inner.Steady.balanced`), and an
error that a parser raises points at a token that was ahead and says what is wrong with it.
-/

namespace DrakeSyntax

open DrakeSyntax.Parser

/-- The tokens from the first cursor to the second one were passed. The closing tokens `k` were
missing in front of them, and those of `l` are missing behind them. -/
structure Cursor.Passes (start : Cursor) (k l : List Token) (c : Cursor) : Prop where
  passed : ∃ ts, start.rest = ts ++ c.rest ∧ c.index = start.index + ts.length ∧
    shiftAll (ts.map (·.token)) k = some l
  ended : c.Ended

/-- The error points at one of the tokens and says what is wrong with it. -/
structure ParseError.RaisedAt (ts : List PlacedToken) (e : ParseError) : Prop where
  place : ∃ t ∈ ts, e.position = t.position ∧ e.found = t.token.describe
  worded : e.Worded

variable {start c : Cursor} {k l m : List Token}

theorem Cursor.Ended.current_mem (h : c.Ended) : c.current ∈ c.rest := by
  obtain ⟨index, rest⟩ := c
  obtain ⟨t, ht, -⟩ := h
  cases rest with
  | nil => cases ht
  | cons u us => exact List.mem_cons_self ..

/-- The end is not passed. -/
theorem Token.ne_endOfInput_of_shift {t : Token} (h : t.shift k = some l) : t ≠ .endOfInput := by
  rintro rfl
  cases k with
  | nil => cases h
  | cons u k => simp [shift, closesList] at h

namespace Cursor.Passes

theorem refl (h : start.Ended) : start.Passes k k start :=
  ⟨⟨[], rfl, rfl, rfl⟩, h⟩

theorem current_mem (h : start.Passes k l c) : c.current ∈ start.rest := by
  obtain ⟨ts, hrest, -, -⟩ := h.passed
  rw [hrest]
  exact List.mem_append_right _ h.ended.current_mem

theorem advance (h : start.Passes k l c) (hshift : c.current.token.shift l = some m) :
    start.Passes k m c.advance := by
  obtain ⟨index, rest⟩ := c
  obtain ⟨⟨ts, hrest, hindex, hts⟩, t, ht, hend⟩ := h
  cases rest with
  | nil => cases ht
  | cons u us =>
    have hne : u.token ≠ .endOfInput := Token.ne_endOfInput_of_shift hshift
    have hu : u.token.shift l = some m := hshift
    simp only at hrest hindex
    simp only [Cursor.advance, if_neg hne]
    refine ⟨⟨ts ++ [u], by simp [hrest], ?_, ?_⟩, t, ?_, hend⟩
    · simp only [hindex, List.length_append, List.length_singleton, Nat.add_assoc]
    · rw [List.map_append, shiftAll_append, hts, List.map_singleton, Option.bind_some, shiftAll, hu]
      rfl
    · rcases List.mem_cons.1 ht with rfl | ht
      · exact absurd hend hne
      · exact ht

end Cursor.Passes

/-- A run beside itself. It never stops. -/
def Coupling.diagonal (start : Cursor) (k : List Token) : Coupling where
  rel l c c' := c' = c ∧ start.Passes k l c
  stopped _ _ := False
  err e e' := e' = e ∧ e.RaisedAt start.rest
  left _ _ := True
  view := id
  ended := by
    rintro _ c _ ⟨rfl, h⟩
    exact ⟨h.ended, h.ended⟩
  inside _ := id
  halts h := Cursor.halts_of_false h
  token := by
    rintro _ c _ ⟨rfl, -⟩ -
    rfl
  position := by
    rintro _ c _ ⟨rfl, -⟩ -
    rfl
  step := by
    rintro _ _ c _ ⟨rfl, h⟩ - hshift
    exact ⟨rfl, h.advance hshift⟩
  index := by
    rintro _ _ c _ d _ ⟨rfl, -⟩ ⟨rfl, -⟩
    exact Iff.rfl
  unexpected := by
    rintro _ c _ expected hexpected ⟨rfl, h⟩
    exact ⟨rfl, ⟨_, h.current_mem, rfl, rfl⟩, .unexpected _ hexpected⟩
  structural := by
    rintro _ c _ note hnote ⟨rfl, h⟩
    exact ⟨rfl, ⟨_, h.current_mem, rfl, rfl⟩, .structural _ hnote⟩
  leaves _ := trivial
  halted _ _ _ _ := False.elim
  farther := by
    rintro d e _ _ ⟨rfl, hd⟩ ⟨rfl, he⟩
    refine ⟨rfl, ?_⟩
    split
    · exact he
    · exact hd

theorem Coupling.colonless_diagonal (start : Cursor) (k : List Token) :
    (Coupling.diagonal start k).Colonless := fun _ _ => False.elim

/-- The phrases inside come to the same beside themselves. -/
def Inner.SteadyAlone (g : Inner) : Prop :=
  ∀ (start : Cursor) (k : List Token), g.Steady (.diagonal start k)

theorem steadyAlone_phrases (depth : Nat) : (phrases depth).SteadyAlone :=
  fun start k => steady_phrases (Coupling.colonless_diagonal start k) depth

/-- What a parser passes that goes on from `k` to `l`, and where its errors are. -/
theorem Coupling.Matches.passes {α : Type} {V : α → α → Prop} {p : Parser α} {s : ParserState}
    (hended : s.cursor.Ended) (h : (Coupling.diagonal s.cursor k).Matches k l V p p) :
    match p s with
    | .ok _ s' => s.cursor.Passes k l s'.cursor
    | .error e _ => e.RaisedAt s.cursor.rest := by
  have hrun := h s s ⟨rfl, .refl hended⟩
  generalize p s = r at hrun ⊢
  cases hrun with
  | ok hrel => exact hrel.2
  | error herr => exact herr.2

/-- An error that tokens are read with points at one of them. -/
theorem raisedAt_of_parseTokens {ts : List PlacedToken} {e : ParseError}
    (h : parseTokens ts = .error e) : e.RaisedAt (closeTokens ts) := by
  let K := Coupling.diagonal (ParserState.ofTokens ts).cursor []
  have hexact : K.Exact [] := fun _ _ _ => id
  have hended : (ParserState.ofTokens ts).cursor.Ended := closeTokens_hasEnd ts
  have hrun := (matches_programWith hexact
    (steadyAlone_phrases ((closeTokens ts).length + 1) _ _)).passes hended
  rw [parseTokens_eq] at h
  generalize programWith (phrases ((closeTokens ts).length + 1)) (.ofTokens ts) = r at h hrun
  cases r with
  | ok p s => cases h
  | error e' s =>
    cases h
    exact hrun

end DrakeSyntax
