import DrakeSyntax.Proofs.Coupling.Diagonal

/-!
# Tokens behind an end token

A run over tokens comes to the same as a run over the same tokens up to the first end token, and
leaves the cursor at the same place, also where it fails (`ending_cut`). What stands behind the
first end token is not looked at.
-/

namespace DrakeSyntax

open DrakeSyntax.Parser

/-- The tokens up to the first end token, that one included. -/
def upToEnd : List PlacedToken → List PlacedToken
  | [] => []
  | t :: ts => if t.token = .endOfInput then [t] else t :: upToEnd ts

/-- The cursor without the tokens behind the first end token. -/
def Cursor.cut (c : Cursor) : Cursor := ⟨c.index, upToEnd c.rest⟩

section UpToEnd

variable {t : PlacedToken} {ts : List PlacedToken}

theorem upToEnd_cons_of_end (h : t.token = .endOfInput) : upToEnd (t :: ts) = [t] := if_pos h

theorem upToEnd_cons_of_ne (h : t.token ≠ .endOfInput) :
    upToEnd (t :: ts) = t :: upToEnd ts := if_neg h

theorem not_hasEnd_nil : ¬∃ u ∈ ([] : List PlacedToken), u.token = .endOfInput := by
  rintro ⟨u, hu, -⟩
  cases hu

/-- An end token that is not the first token is one of those behind it. -/
theorem hasEnd_tail (h : ∃ u ∈ t :: ts, u.token = .endOfInput) (ht : t.token ≠ .endOfInput) :
    ∃ u ∈ ts, u.token = .endOfInput := by
  obtain ⟨u, hu, hend⟩ := h
  rcases List.mem_cons.1 hu with rfl | hu
  · exact absurd hend ht
  · exact ⟨u, hu, hend⟩

/-- With an end token among them the tokens are cut off, and end with one. -/
theorem getLast?_upToEnd (h : ∃ u ∈ ts, u.token = .endOfInput) :
    ∃ e, (upToEnd ts).getLast? = some e ∧ e.token = .endOfInput := by
  induction ts with
  | nil => exact absurd h not_hasEnd_nil
  | cons t ts ih =>
    by_cases ht : t.token = .endOfInput
    · rw [upToEnd_cons_of_end ht]
      exact ⟨t, rfl, ht⟩
    · obtain ⟨e, hlast, hend⟩ := ih (hasEnd_tail h ht)
      rw [upToEnd_cons_of_ne ht, List.getLast?_cons, hlast]
      exact ⟨e, rfl, hend⟩

theorem hasEnd_upToEnd (h : ∃ u ∈ ts, u.token = .endOfInput) :
    ∃ u ∈ upToEnd ts, u.token = .endOfInput := by
  obtain ⟨e, hlast, hend⟩ := getLast?_upToEnd h
  exact ⟨e, List.mem_of_getLast? hlast, hend⟩

theorem upToEnd_append (h : ∃ u ∈ ts, u.token = .endOfInput) (us : List PlacedToken) :
    upToEnd (ts ++ us) = upToEnd ts := by
  induction ts with
  | nil => exact absurd h not_hasEnd_nil
  | cons t ts ih =>
    by_cases ht : t.token = .endOfInput
    · rw [List.cons_append, upToEnd_cons_of_end ht, upToEnd_cons_of_end ht]
    · rw [List.cons_append, upToEnd_cons_of_ne ht, upToEnd_cons_of_ne ht, ih (hasEnd_tail h ht)]

/-- Nothing is cut off in front of the first end token. -/
theorem upToEnd_append_of_forall_ne (h : ∀ u ∈ ts, u.token ≠ .endOfInput)
    (us : List PlacedToken) : upToEnd (ts ++ us) = ts ++ upToEnd us := by
  induction ts with
  | nil => rfl
  | cons t ts ih =>
    obtain ⟨ht, hts⟩ := List.forall_mem_cons.1 h
    rw [List.cons_append, upToEnd_cons_of_ne ht, ih hts, List.cons_append]

theorem length_upToEnd_le (ts : List PlacedToken) : (upToEnd ts).length ≤ ts.length := by
  induction ts with
  | nil => exact Nat.le_refl _
  | cons t ts ih =>
    unfold upToEnd
    split
    · exact Nat.succ_le_succ (Nat.zero_le _)
    · exact Nat.succ_le_succ ih

/-- Tokens may be cut off before an end token is put behind them, or afterwards. -/
theorem closeTokens_upToEnd (ts : List PlacedToken) :
    closeTokens (upToEnd ts) = upToEnd (closeTokens ts) := by
  by_cases h : ∃ u ∈ ts, u.token = .endOfInput
  · -- there is an end token to cut off at, so neither adds one
    obtain ⟨e, hlast, hend⟩ := getLast?_upToEnd h
    have hclosed : closeTokens (upToEnd ts) = upToEnd ts := by
      simp only [closeTokens, hlast, hend, if_true]
    rw [hclosed]
    rcases closeTokens_cases ts with ⟨hts, -⟩ | ⟨p, hts⟩
    · rw [hts]
    · rw [hts, upToEnd_append h]
  · -- nothing is cut off, and the end token that is added comes last
    have hne : ∀ u ∈ ts, u.token ≠ .endOfInput := fun u hu hend => h ⟨u, hu, hend⟩
    have hall := upToEnd_append_of_forall_ne hne []
    rw [List.append_nil, upToEnd, List.append_nil] at hall
    rcases closeTokens_cases ts with ⟨-, t, hlast, hend⟩ | ⟨p, hts⟩
    · exact absurd ⟨t, List.mem_of_getLast? hlast, hend⟩ h
    · rw [hall, hts, upToEnd_append_of_forall_ne hne, upToEnd_cons_of_end rfl]

end UpToEnd

namespace Cursor.Ended

variable {c : Cursor}

theorem cut (h : c.Ended) : c.cut.Ended := hasEnd_upToEnd h

theorem current_cut (h : c.Ended) : c.cut.current = c.current := by
  obtain ⟨index, rest⟩ := c
  cases rest with
  | nil => exact absurd h not_hasEnd_nil
  | cons u us =>
    by_cases hu : u.token = .endOfInput
    · simp only [Cursor.cut, Cursor.current, upToEnd_cons_of_end hu]
    · simp only [Cursor.cut, Cursor.current, upToEnd_cons_of_ne hu]

/-- Before its end token the cursor moves on in both cases. -/
theorem advance_cut (h : c.Ended) (hne : c.current.token ≠ .endOfInput) :
    c.cut.advance = c.advance.cut ∧ c.advance.Ended := by
  obtain ⟨index, rest⟩ := c
  cases rest with
  | nil => exact absurd h not_hasEnd_nil
  | cons u us =>
    have hu : u.token ≠ .endOfInput := hne
    simp only [Cursor.cut, Cursor.advance, upToEnd_cons_of_ne hu, if_neg hu]
    exact ⟨trivial, hasEnd_tail h hu⟩

end Cursor.Ended

/-- A run beside one over the tokens up to the first end token. It never stops. -/
def Coupling.cut : Coupling where
  rel _ c c' := c' = c.cut ∧ c.Ended
  stopped _ _ := False
  err e e' := e' = e
  left c c' := c' = c.cut
  view := id
  ended := by
    rintro _ c _ ⟨rfl, h⟩
    exact ⟨h, h.cut⟩
  inside _ := id
  halts h := Cursor.halts_of_false h
  token := by
    rintro _ c _ ⟨rfl, h⟩ -
    rw [h.current_cut]
  position := by
    rintro _ c _ ⟨rfl, h⟩ -
    rw [h.current_cut]
  step := by
    rintro _ _ c _ ⟨rfl, h⟩ - hshift
    exact h.advance_cut (Token.ne_endOfInput_of_shift hshift)
  index := by
    rintro _ _ c _ d _ ⟨rfl, -⟩ ⟨rfl, -⟩
    exact Iff.rfl
  unexpected := by
    rintro _ c _ expected - ⟨rfl, h⟩
    rw [h.current_cut]
  structural := by
    rintro _ c _ note - ⟨rfl, h⟩
    rw [h.current_cut]
  leaves h := h.1
  halted _ _ _ _ := False.elim
  farther := by
    rintro d e _ _ rfl rfl
    rfl

theorem Coupling.colonless_cut : Coupling.cut.Colonless := fun _ _ => False.elim

variable {α : Type} {p : Parser α} {V : α → α → Prop} {s s' : ParserState}

/-- **Tokens behind the first end token do not matter.** -/
theorem ending_cut (hp : Coupling.cut.Matches [] [] V p p) (hV : ∀ a b, V a b → b = a)
    (hended : s.cursor.Ended) (hcut : s'.cursor = s.cursor.cut) :
    ending (p s') = ((ending (p s)).1, (ending (p s)).2.cut) := by
  have hrun := hp s s' ⟨hcut, hended⟩
  generalize p s = r, p s' = r' at hrun ⊢
  cases hrun with
  | ok hrel value =>
    obtain rfl := hV _ _ value
    exact congrArg (_, ·) hrel.1
  | error herr hleft =>
    obtain rfl := herr
    exact congrArg (_, ·) hleft

end DrakeSyntax
