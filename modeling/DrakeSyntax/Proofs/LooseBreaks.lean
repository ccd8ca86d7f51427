import DrakeSyntax.Proofs.Separators.Item

/-!
# Line breaks that may be left out

A line break may stand in front of `then`, `else`, `catch` and `finally`. Two sequences of tokens
that differ in such line breaks are one sequence of tokens, each of them with the line break in
front of it that may be left out (`LooseToken`). A parser is run without those line breaks and with
them, and its cursors are abreast as long as they are in front of the same token
(`Cursor.Abreast`). Either both of them see that token, or the one of the second run is at the line
break in front of it (`Cursor.Abreast.cases`).

* `LooseToken.tight`, `LooseToken.loose`: the tokens without the line breaks and with them.
* `Cursor.Meets`: both cursors see the same token. Behind a line break that both of them see, they
  do so again (`Cursor.Meets.meets_advance`).
* `Cursor.Seam`: only the second cursor sees a line break, and the keyword is behind it.
-/

namespace DrakeSyntax

/-! ### Tokens with line breaks in front of them -/

/-- A token, and the line break in front of it that may be left out, if there is one. -/
structure LooseToken where
  lineBreak : Option PlacedToken
  token : PlacedToken

namespace LooseToken

/-- The token with the line break in front of it. -/
def tokens (x : LooseToken) : List PlacedToken := x.lineBreak.toList ++ [x.token]

/-- The tokens without the line breaks. -/
def tight (xs : List LooseToken) : List PlacedToken := xs.map (·.token)

/-- The tokens with the line breaks. -/
def loose (xs : List LooseToken) : List PlacedToken := xs.flatMap tokens

/-- The line breaks stand in front of keywords that go on with a form, and none of them stands
behind another line break. -/
structure Loosened (xs : List LooseToken) : Prop where
  front : ∀ x ∈ xs, ∀ n ∈ x.lineBreak, n.token = .newline ∧ x.token.token.continues
  apart : xs.IsChain fun x y => x.token.token = .newline → y.lineBreak = none

variable {xs ys : List LooseToken} {x : LooseToken}

@[simp]
theorem loose_nil : loose [] = [] := rfl

@[simp]
theorem tight_cons : tight (x :: xs) = x.token :: tight xs := rfl

@[simp]
theorem loose_cons : loose (x :: xs) = x.lineBreak.toList ++ x.token :: loose xs := by
  simp [loose, tokens]

theorem loose_append : loose (xs ++ ys) = loose xs ++ loose ys := List.flatMap_append

theorem Loosened.drop (h : Loosened xs) (i : Nat) : Loosened (xs.drop i) where
  front x hx := h.front x (List.mem_of_mem_drop hx)
  apart := h.apart.drop i

/-- The more tokens there are without line breaks, the more there are with them. -/
theorem length_loose_take_lt {i j : Nat} (hij : i < j) (hj : j ≤ xs.length) :
    (loose (xs.take i)).length < (loose (xs.take j)).length := by
  obtain ⟨n, rfl⟩ := Nat.exists_eq_add_of_lt hij
  have hi : i < xs.length := by omega
  have hsplit : xs.take (i + n + 1) = xs.take i ++ xs[i] :: (xs.drop (i + 1)).take n := by
    rw [Nat.add_assoc, List.take_add, List.drop_eq_getElem_cons hi, List.take_succ_cons]
  rw [hsplit, loose_append, loose_cons]
  simp only [List.length_append, List.length_cons]
  omega

end LooseToken

open LooseToken

variable {xs : List LooseToken}

/-- Both cursors are in front of the same token, the second one also in front of the line break that
the token may have. -/
structure Cursor.Abreast (xs : List LooseToken) (c c' : Cursor) : Prop where
  loosened : Loosened xs
  rest : c.rest = tight (xs.drop c.index)
  rest' : c'.rest = loose (xs.drop c.index)
  index : c'.index = (loose (xs.take c.index)).length
  ended : ∃ x ∈ xs.drop c.index, x.token.token = .endOfInput

/-- Both cursors are at the same token. -/
structure Cursor.Meets (xs : List LooseToken) (c c' : Cursor) : Prop where
  abreast : c.Abreast xs c'
  current : c.current = c'.current
  advance : c.advance.Abreast xs c'.advance
  behindBreak : c.current.token = .newline → c.advance.current = c'.advance.current

/-- The second cursor is at a line break in front of the keyword that the first one is at. -/
structure Cursor.Seam (xs : List LooseToken) (c c' : Cursor) : Prop where
  abreast : c.Abreast xs c'
  continues : c.current.token.continues
  newline : c'.current.token = .newline
  behind : c'.advance.current = c.current
  advance : c.advance.Abreast xs c'.advance.advance

/-- Whether the token is a line break or a keyword that a line break may stand in front of. -/
def Token.atSeam (t : Token) : Bool := t == .newline || t.continues

theorem Token.atSeam_cases {t : Token} (h : t.atSeam) :
    t = .newline ∨ t = .keyword .then_ ∨ t = .keyword .else_ ∨ t = .keyword .catch_ ∨
      t = .keyword .finally_ := by
  rcases Bool.or_eq_true_iff.1 h with hnewline | hcontinues
  · exact .inl (eq_of_beq hnewline)
  · unfold continues at hcontinues
    split at hcontinues
    · exact .inr (.inl rfl)
    · exact .inr (.inr (.inl rfl))
    · exact .inr (.inr (.inr (.inl rfl)))
    · exact .inr (.inr (.inr (.inr rfl)))
    · cases hcontinues

theorem Token.atSeam_of_continues {t : Token} (h : t.continues) : t.atSeam := by simp [atSeam, h]

theorem Token.ne_newline_of_continues {t : Token} (h : t.continues) : t ≠ .newline := by
  rintro rfl
  cases h

theorem Token.ne_endOfInput_of_continues {t : Token} (h : t.continues) : t ≠ .endOfInput := by
  rintro rfl
  cases h

namespace Cursor.Seam

variable {c c' : Cursor}

theorem atSeam (h : c.Seam xs c') : c.current.token.atSeam := Token.atSeam_of_continues h.continues

theorem atSeam' (h : c.Seam xs c') : c'.current.token.atSeam := by simp [Token.atSeam, h.newline]

theorem current_ne (h : c.Seam xs c') : c.current.token ≠ .newline :=
  Token.ne_newline_of_continues h.continues

end Cursor.Seam

theorem Cursor.advance_of_rest {c : Cursor} {t : PlacedToken} {us : List PlacedToken}
    (h : c.rest = t :: us) (ht : t.token ≠ .endOfInput) : c.advance = ⟨c.index + 1, us⟩ := by
  rw [Cursor.advance, h]
  exact if_neg ht

theorem Cursor.advance_of_end {c : Cursor} {t : PlacedToken} {us : List PlacedToken}
    (h : c.rest = t :: us) (ht : t.token = .endOfInput) : c.advance = c := by
  rw [Cursor.advance, h]
  exact if_pos ht

namespace Cursor.Abreast

variable {c c' d d' : Cursor}

theorem exists_drop (h : c.Abreast xs c') :
    ∃ x ys, xs.drop c.index = x :: ys ∧ xs.drop (c.index + 1) = ys ∧
      xs.take (c.index + 1) = xs.take c.index ++ [x] := by
  have hlt : c.index < xs.length := by
    obtain ⟨x, hx, -⟩ := h.ended
    by_contra hle
    rw [List.drop_eq_nil_of_le (Nat.le_of_not_lt hle)] at hx
    cases hx
  exact ⟨xs[c.index], _, List.drop_eq_getElem_cons hlt, rfl, List.take_succ_eq_append_getElem hlt⟩

theorem ends (h : c.Abreast xs c') : c.Ended ∧ c'.Ended := by
  obtain ⟨x, hx, hend⟩ := h.ended
  refine ⟨⟨x.token, ?_, hend⟩, x.token, ?_, hend⟩
  · rw [h.rest]
    exact List.mem_map_of_mem hx
  · rw [h.rest']
    exact List.mem_flatMap.2 ⟨x, hx, by simp [LooseToken.tokens]⟩

/-- Behind the token that both cursors are in front of, they are abreast again. -/
theorem behind (h : c.Abreast xs c') {x : LooseToken} {ys : List LooseToken}
    (hdrop : xs.drop c.index = x :: ys) (hend : x.token.token ≠ .endOfInput) :
    (⟨c.index + 1, tight ys⟩ : Cursor).Abreast xs ⟨c'.index + x.tokens.length, loose ys⟩ := by
  obtain ⟨x', ys', hdrop', hnext, htake⟩ := h.exists_drop
  obtain ⟨rfl, rfl⟩ := List.cons.inj (hdrop.symm.trans hdrop')
  refine ⟨h.loosened, by rw [hnext], by rw [hnext], ?_, ?_⟩
  · rw [htake, loose_append, List.length_append, ← h.index]
    simp [loose]
  · obtain ⟨y, hy, hyend⟩ := h.ended
    rw [hdrop] at hy
    rcases List.mem_cons.1 hy with rfl | hy
    · exact absurd hyend hend
    · exact ⟨y, hnext ▸ hy, hyend⟩

section Drop

variable {x : LooseToken} {ys : List LooseToken}

theorem rest_cons (h : c.Abreast xs c') (hdrop : xs.drop c.index = x :: ys) :
    c.rest = x.token :: tight ys := by
  rw [h.rest, hdrop, tight_cons]

theorem rest_cons' (h : c.Abreast xs c') (hdrop : xs.drop c.index = x :: ys) :
    c'.rest = x.lineBreak.toList ++ x.token :: loose ys := by
  rw [h.rest', hdrop, loose_cons]

theorem meets (h : c.Abreast xs c') (hdrop : xs.drop c.index = x :: ys)
    (hbreak : x.lineBreak = none) : c.Meets xs c' := by
  have hrest := h.rest_cons hdrop
  have hrest' : c'.rest = x.token :: loose ys := by
    rw [h.rest_cons' hdrop, hbreak, Option.toList_none, List.nil_append]
  have hcurrent : c.current = x.token := by rw [current, hrest]
  have hcurrent' : c'.current = x.token := by rw [current, hrest']
  by_cases hend : x.token.token = .endOfInput
  · -- neither cursor moves on
    refine ⟨h, hcurrent.trans hcurrent'.symm, ?_, fun hnewline => ?_⟩
    · rwa [advance_of_end hrest hend, advance_of_end hrest' hend]
    · rw [hcurrent, hend] at hnewline
      cases hnewline
  · have hbehind := h.behind hdrop hend
    have hloosened : Loosened (x :: ys) := hdrop ▸ h.loosened.drop c.index
    simp only [LooseToken.tokens, hbreak, Option.toList_none, List.nil_append,
      List.length_singleton] at hbehind
    refine ⟨h, hcurrent.trans hcurrent'.symm, ?_, fun hnewline => ?_⟩
    · rwa [advance_of_rest hrest hend, advance_of_rest hrest' hend]
    · -- no line break in front of the next token may be left out
      rw [advance_of_rest hrest hend, advance_of_rest hrest' hend]
      cases ys with
      | nil => rfl
      | cons y zs =>
        have hnone := (List.isChain_cons_cons.1 hloosened.apart).1 (hcurrent ▸ hnewline)
        simp only [current, tight_cons, loose_cons, hnone, Option.toList_none, List.nil_append]

theorem seam (h : c.Abreast xs c') (hdrop : xs.drop c.index = x :: ys) {n : PlacedToken}
    (hbreak : x.lineBreak = some n) : c.Seam xs c' := by
  have hloosened : Loosened (x :: ys) := hdrop ▸ h.loosened.drop c.index
  obtain ⟨hnewline, hcontinues⟩ := hloosened.front x (List.mem_cons_self ..) n hbreak
  have hrest := h.rest_cons hdrop
  have hrest' : c'.rest = n :: x.token :: loose ys := by
    rw [h.rest_cons' hdrop, hbreak, Option.toList_some, List.singleton_append]
  have hcurrent : c.current = x.token := by rw [current, hrest]
  have hend := Token.ne_endOfInput_of_continues hcontinues
  have hadvance' : c'.advance = ⟨c'.index + 1, x.token :: loose ys⟩ :=
    advance_of_rest hrest' (by simp [hnewline])
  have hbehind := h.behind hdrop hend
  simp only [LooseToken.tokens, hbreak, Option.toList_some] at hbehind
  refine ⟨h, hcurrent ▸ hcontinues, by rwa [current, hrest'], ?_, ?_⟩
  · rw [hadvance', hcurrent]
    rfl
  · rw [advance_of_rest hrest hend, hadvance', advance_of_rest rfl hend]
    exact hbehind

end Drop

/-- **The cursors are at the same token, or the second one is at a line break in front of it.** -/
theorem cases (h : c.Abreast xs c') : c.Meets xs c' ∨ c.Seam xs c' := by
  obtain ⟨x, ys, hdrop, -, -⟩ := h.exists_drop
  cases hbreak : x.lineBreak with
  | none => exact .inl (h.meets hdrop hbreak)
  | some n => exact .inr (h.seam hdrop hbreak)

theorem index_le (h : c.Abreast xs c') : c.index ≤ xs.length := by
  obtain ⟨x, ys, hdrop, -, -⟩ := h.exists_drop
  by_contra hlt
  rw [List.drop_eq_nil_of_le (Nat.le_of_not_le hlt)] at hdrop
  cases hdrop

/-- Pairs of cursors that are abreast are in the same order. -/
theorem index_lt_iff (h : c.Abreast xs c') (hd : d.Abreast xs d') :
    c.index < d.index ↔ c'.index < d'.index := by
  rw [h.index, hd.index]
  constructor
  · intro hlt
    exact length_loose_take_lt hlt hd.index_le
  · intro hlt
    by_contra hle
    rcases Nat.lt_or_eq_of_le (Nat.le_of_not_lt hle) with hgt | heq
    · have := length_loose_take_lt hgt h.index_le
      omega
    · rw [heq] at hlt
      exact absurd hlt (Nat.lt_irrefl _)

end Cursor.Abreast

/-- Behind a line break that both cursors are at, they are at the same token again. -/
theorem Cursor.Meets.meets_advance {c c' : Cursor} (h : c.Meets xs c')
    (hnewline : c.current.token = .newline) : c.advance.Meets xs c'.advance := by
  rcases h.advance.cases with hmeets | hseam
  · exact hmeets
  · exact absurd (h.behindBreak hnewline ▸ hseam.newline) hseam.current_ne

theorem Cursor.Meets.following_eq {c c' : Cursor} (h : c.Meets xs c')
    (hnewline : c.current.token = .newline) : c.following = c'.following := by
  have hended := h.abreast.ends
  rw [hended.1.following_eq (by simp [hnewline]),
    hended.2.following_eq (by simp [← h.current, hnewline]), h.behindBreak hnewline]

/-- The second run has the line break and the keyword ahead. -/
theorem Cursor.Seam.exists_tokens {s s' : ParserState} (h : s.cursor.Seam xs s'.cursor) :
    ∃ us, s'.tokens = .newline :: s.cursor.current.token :: us := by
  rw [tokens_of_current h.newline (by simp), tokens_of_current (congrArg _ h.behind)
    (Token.ne_endOfInput_of_continues h.continues)]
  exact ⟨_, rfl⟩

theorem Cursor.Seam.following {c c' : Cursor} (h : c.Seam xs c') :
    c'.following = c.current.token := by
  rw [h.abreast.ends.2.following_eq (by simp [h.newline]), h.behind]

end DrakeSyntax
