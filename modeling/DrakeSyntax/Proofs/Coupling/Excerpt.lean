import DrakeSyntax.Proofs.Coupling.Diagonal

/-!
# The same tokens in other surroundings

A phrase that takes some tokens in front of something that ends an expression takes the same tokens,
with the same result, in front of something else that does (`Coupling.Matches.elsewhere`). The two
runs are coupled up to the end of these tokens (`Coupling.excerpt`).
-/

namespace DrakeSyntax

open DrakeSyntax.Parser

/-- An expression ends in front of the tokens, whatever it is, and an end token is among them. -/
structure EndsExpression (w : List PlacedToken) : Prop where
  halts : Cursor.Halts ⟨0, w⟩
  ended : ∃ t ∈ w, t.token = .endOfInput

/-- An item ends in front of the tokens, so that the expression there is no key. -/
structure EndsItem (w : List PlacedToken) : Prop extends EndsExpression w where
  separates : (Cursor.current ⟨0, w⟩).token.separates

theorem EndsExpression.cursor_halts {w : List PlacedToken} (hw : EndsExpression w) {c : Cursor}
    (hc : c.rest = w) : c.Halts := by
  obtain ⟨index, rest⟩ := c
  obtain rfl : rest = w := hc
  exact ⟨hw.halts.token, hw.halts.newline⟩

theorem EndsItem.current_ne {w : List PlacedToken} (hw : EndsItem w) {c : Cursor} {t : Token}
    (hc : c.rest = w) (ht : t.separates = false) : c.current.token ≠ t := by
  rintro rfl
  have hseparates := hw.separates
  rw [← hc] at hseparates
  exact absurd (ht.symm.trans hseparates) Bool.false_ne_true

/-- The same tokens are left in front of `w` and in front of `w'`. They do not end inside
brackets. -/
structure Cursor.Shares (w w' : List PlacedToken) (offset : Nat) (k : List Token) (c c' : Cursor) :
    Prop where
  index : c'.index = c.index + offset
  tokens : ∃ ts, c.rest = ts ++ w ∧ c'.rest = ts ++ w' ∧ shiftAll (ts.map (·.token)) k = some []

variable {w w' : List PlacedToken} {offset : Nat} {k l : List Token} {c c' : Cursor}

namespace Cursor.Shares

theorem ended (hw : EndsExpression w) (hw' : EndsExpression w') (h : c.Shares w w' offset k c') :
    c.Ended ∧ c'.Ended := by
  obtain ⟨-, ts, hrest, hrest', -⟩ := h
  obtain ⟨t, ht, hend⟩ := hw.ended
  obtain ⟨t', ht', hend'⟩ := hw'.ended
  refine ⟨⟨t, ?_, hend⟩, t', ?_, hend'⟩
  · rw [hrest]
    exact List.mem_append_right _ ht
  · rw [hrest']
    exact List.mem_append_right _ ht'

/-- One of the tokens is at both cursors unless none is left. -/
theorem cons_of_ne (h : c.Shares w w' offset k c') (hne : ¬(c.rest = w ∧ c'.rest = w')) :
    ∃ t ts, c.rest = t :: (ts ++ w) ∧ c'.rest = t :: (ts ++ w') ∧
      shiftAll (t.token :: ts.map (·.token)) k = some [] := by
  obtain ⟨-, ts, hrest, hrest', hts⟩ := h
  cases ts with
  | nil => exact absurd ⟨hrest, hrest'⟩ hne
  | cons t ts => exact ⟨t, ts, hrest, hrest', hts⟩

theorem current_eq (h : c.Shares w w' offset k c') (hne : ¬(c.rest = w ∧ c'.rest = w')) :
    c.current = c'.current := by
  obtain ⟨t, ts, hrest, hrest', -⟩ := h.cons_of_ne hne
  rw [Cursor.current, Cursor.current, hrest, hrest']

theorem advance (h : c.Shares w w' offset k c') (hne : ¬(c.rest = w ∧ c'.rest = w'))
    (hshift : c.current.token.shift k = some l) : c.advance.Shares w w' offset l c'.advance := by
  obtain ⟨t, ts, hrest, hrest', hts⟩ := h.cons_of_ne hne
  have hindex := h.index
  rw [Cursor.current, hrest] at hshift
  have hend : t.token ≠ .endOfInput := Token.ne_endOfInput_of_shift hshift
  rw [shiftAll, hshift] at hts
  simp only [Cursor.advance, hrest, hrest', if_neg hend]
  exact ⟨by simp only [hindex]; omega, ts, rfl, rfl, hts⟩

end Cursor.Shares

/-- Runs over the same tokens in front of `w` and in front of `w'`. They stop there. -/
def Coupling.excerpt (hw : EndsExpression w) (hw' : EndsExpression w') (offset : Nat) : Coupling where
  rel k c c' := c.Shares w w' offset k c'
  stopped c c' := c.rest = w ∧ c'.rest = w'
  err _ _ := True
  left _ _ := True
  view := id
  ended h := h.ended hw hw'
  inside := by
    rintro t k c c' ⟨-, ts, hrest, -, hts⟩ ⟨hstop, -⟩
    rw [hstop, List.self_eq_append_left] at hrest
    subst hrest
    cases hts
  halts h := ⟨hw.cursor_halts h.1, hw'.cursor_halts h.2⟩
  token h hne := congrArg _ (h.current_eq hne)
  position h hne := congrArg PlacedToken.position (h.current_eq hne)
  step h hne hshift := h.advance hne hshift
  index h h' := by rw [h.index, h'.index, Nat.add_lt_add_iff_right]
  unexpected _ _ := trivial
  structural _ _ := trivial
  leaves _ := trivial
  halted _ _ _ _ _ := ⟨trivial, trivial⟩
  farther _ _ := trivial

theorem Coupling.colonless_excerpt (hw : EndsItem w) (hw' : EndsItem w') (offset : Nat) :
    (Coupling.excerpt hw.toEndsExpression hw'.toEndsExpression offset).Colonless :=
  fun _ _ h => ⟨hw.current_ne h.1 rfl, hw'.current_ne h.2 rfl⟩

/-- **A phrase is read alike elsewhere.** What takes all tokens in front of `w` takes all of them in
front of `w'`, and comes to the same. -/
theorem Coupling.Matches.elsewhere {p : Parser Node} (hw : EndsExpression w)
    (hw' : EndsExpression w')
    (hexcerpt : ∀ offset, (Coupling.excerpt hw hw' offset).Matches [] []
      ((Coupling.excerpt hw hw' offset).Views Node.relocate) p p)
    {s r s' : ParserState} {ts : List PlacedToken} {n : Node}
    (hbalanced : Balanced (ts.map (·.token))) (hs : s.cursor.rest = ts ++ w) (hrun : p s = .ok n r)
    (hr : r.cursor.rest = w) (hs' : s'.cursor.rest = ts ++ w')
    (hindex : s.cursor.index ≤ s'.cursor.index) :
    ∃ r', p s' = .ok n r' ∧ r'.cursor.rest = w' := by
  have hrel : s.cursor.Shares w w' (s'.cursor.index - s.cursor.index) [] s'.cursor :=
    ⟨(Nat.add_sub_cancel' hindex).symm, ts, hs, hs', hbalanced⟩
  have houtcome := hexcerpt (s'.cursor.index - s.cursor.index) s s' hrel
  rw [hrun] at houtcome
  generalize p s' = result at houtcome ⊢
  cases houtcome with
  | @ok _ n' _ r' hrel' hview =>
    obtain ⟨-, us, hus, hus', -⟩ := hrel'
    rw [hr, List.self_eq_append_left] at hus
    subst hus
    have hsame : n.relocate id = n'.relocate id := hview
    rw [Node.relocate_id, Node.relocate_id] at hsame
    exact ⟨r', by rw [hsame], hus'⟩

end DrakeSyntax
