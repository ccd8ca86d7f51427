import DrakeSyntax.Proofs.LooseBreaks.Expression
import DrakeSyntax.Proofs.Progress

/-!
# Line breaks in front of `then`, `else`, `catch` and `finally`

Line breaks are put in front of keywords that go on with a form (`BreaksInserted`), wherever the
keywords stand. The tokens without them and with them are those of one sequence of loose tokens
(`BreaksInserted.exists_loose`), also with an end token behind them (`exists_closeTokens`).

* `parseTokens_breaksInserted`: **the same program is read without the line breaks and with them.**
-/

namespace DrakeSyntax

open DrakeSyntax.Parser LooseToken

/-- The second tokens are the first ones with line breaks in front of some of the keywords `then`,
`else`, `catch` and `finally`, none of them behind another line break. Whether a line break stands
in front of the tokens is `behindBreak`. -/
inductive BreaksInserted : (behindBreak : Bool) → List PlacedToken → List PlacedToken → Prop
  | nil {behindBreak} : BreaksInserted behindBreak [] []
  | keep {behindBreak t us vs} (rest : BreaksInserted (t.token == .newline) us vs) :
    BreaksInserted behindBreak (t :: us) (t :: vs)
  | insert {n t us vs} (newline : n.token = .newline) (continues : t.token.continues)
    (rest : BreaksInserted false us vs) : BreaksInserted false (t :: us) (n :: t :: vs)

variable {us vs ts : List PlacedToken} {xs : List LooseToken}

namespace LooseToken

theorem Loosened.cons {x : LooseToken} (hxs : Loosened xs)
    (hfront : ∀ n, x.lineBreak = some n → n.token = .newline ∧ x.token.token.continues)
    (hapart : x.token.token = .newline → ∀ y ∈ xs.head?, y.lineBreak = none) :
    Loosened (x :: xs) where
  front y hy n hn := by
    rcases List.mem_cons.1 hy with rfl | hy
    · exact hfront n hn
    · exact hxs.front y hy n hn
  apart := List.isChain_cons.2 ⟨fun y hy hnewline => hapart hnewline y hy, hxs.apart⟩

/-- A token without a line break in front of it may come last. -/
theorem Loosened.concat (hxs : Loosened xs) (e : PlacedToken) : Loosened (xs ++ [⟨none, e⟩]) where
  front x hx n hn := by
    rcases List.mem_append.1 hx with hx | hx
    · exact hxs.front x hx n hn
    · obtain rfl := List.mem_singleton.1 hx
      cases hn
  apart := by
    refine List.isChain_append.2 ⟨hxs.apart, .singleton _, fun x _ y hy _ => ?_⟩
    cases hy
    rfl

end LooseToken

/-- The tokens are those of loose tokens, the first one of which has no line break behind another
one. -/
theorem BreaksInserted.exists_loose {behindBreak : Bool} (h : BreaksInserted behindBreak us vs) :
    ∃ xs, tight xs = us ∧ loose xs = vs ∧ Loosened xs ∧
      (behindBreak = true → ∀ x ∈ xs.head?, x.lineBreak = none) := by
  induction h with
  | nil =>
    refine ⟨[], rfl, rfl, ⟨fun x hx => ?_, .nil⟩, fun _ x hx => ?_⟩
    · cases hx
    · cases hx
  | @keep _ t us vs _ ih =>
    obtain ⟨xs, rfl, rfl, hloosened, hhead⟩ := ih
    refine ⟨⟨none, t⟩ :: xs, rfl, by simp, hloosened.cons (fun n hn => ?_) ?_, fun _ x hx => ?_⟩
    · cases hn
    · exact fun hnewline => hhead (beq_iff_eq.2 hnewline)
    · cases hx
      rfl
  | @insert n t us vs newline continues _ ih =>
    obtain ⟨xs, rfl, rfl, hloosened, -⟩ := ih
    refine ⟨⟨some n, t⟩ :: xs, rfl, by simp, hloosened.cons (fun m hm => ?_) ?_, fun h => ?_⟩
    · cases hm
      exact ⟨newline, continues⟩
    · exact fun hnewline => absurd hnewline (Token.ne_newline_of_continues continues)
    · cases h

/-- No line break stands behind the last token. -/
theorem getLast?_loose (xs : List LooseToken) : (loose xs).getLast? = (tight xs).getLast? := by
  rcases List.eq_nil_or_concat xs with rfl | ⟨ys, x, rfl⟩
  · rfl
  · rw [List.concat_eq_append, loose_append]
    simp [tight]

/-- The end token is put behind both sequences or behind none. -/
theorem exists_closeTokens (h : Loosened xs) :
    ∃ ys, closeTokens (tight xs) = tight ys ∧ closeTokens (loose xs) = loose ys ∧ Loosened ys := by
  have hclose (e : PlacedToken) : ∃ ys, tight xs ++ [e] = tight ys ∧ loose xs ++ [e] = loose ys ∧
      Loosened ys := by
    refine ⟨xs ++ [⟨none, e⟩], by simp [tight], ?_, h.concat e⟩
    rw [loose_append]
    simp
  unfold closeTokens
  rw [getLast?_loose]
  cases hlast : (tight xs).getLast? with
  | none =>
    have hnil : xs = [] := by simpa [tight] using hlast
    rw [hnil] at hclose
    exact hclose _
  | some t =>
    dsimp only
    split
    · exact ⟨xs, rfl, rfl, h⟩
    · exact hclose _

/-- Phrases may nest deeper than they need to. -/
theorem parseTokens_eq_ending {depth : Nat} (hdepth : (closeTokens ts).length ≤ depth) :
    parseTokens ts = (ending (programWith (phrases depth) (.ofTokens ts))).1 := by
  have hending := (ParserState.Among.ofTokens ts).ending_program (.none false) hdepth
  rw [phrases, hending]
  unfold parseTokens
  cases Parser.program (.ofTokens ts) with
  | ok p s => rfl
  | error e s => rfl

/-- **Line breaks in front of `then`, `else`, `catch` and `finally` do not matter.** Tokens without
them are a program if and only if they are the same program with them, whatever the positions of the
line breaks. -/
theorem parseTokens_breaksInserted (h : BreaksInserted false us vs) (p : Program) :
    parseTokens us = .ok p ↔ parseTokens vs = .ok p := by
  obtain ⟨xs, rfl, rfl, hloosened, -⟩ := h.exists_loose
  obtain ⟨ys, htight, hloose, hclosed⟩ := exists_closeTokens hloosened
  have habreast : (ParserState.ofTokens (tight xs)).cursor.Abreast ys
      (ParserState.ofTokens (loose xs)).cursor := by
    refine ⟨hclosed, htight, hloose, rfl, ?_⟩
    obtain ⟨t, ht, hend⟩ := closeTokens_hasEnd (tight xs)
    rw [htight] at ht
    obtain ⟨y, hy, rfl⟩ := List.mem_map.1 ht
    exact ⟨y, hy, hend⟩
  -- phrases that nest deeply enough for both runs
  obtain ⟨depth, hdepth, hdepth'⟩ : ∃ depth, (closeTokens (tight xs)).length ≤ depth ∧
      (closeTokens (loose xs)).length ≤ depth := ⟨_, Nat.le_max_left .., Nat.le_max_right ..⟩
  rw [parseTokens_eq_ending hdepth, parseTokens_eq_ending hdepth']
  have hrun := overlooks_programWith (Inner.overlooks_phrases depth) _ _ habreast
  generalize programWith (phrases depth) (.ofTokens (tight xs)) = r,
    programWith (phrases depth) (.ofTokens (loose xs)) = r' at hrun ⊢
  cases hrun with
  | ok => exact Iff.rfl
  | error => exact ⟨nofun, nofun⟩
  | early allowed => exact allowed.elim

/-- A conditional with its branches on lines of their own. -/
theorem parseTokens_breaksInserted_conditional :
    parseTokens [⟨.keyword .if_, ⟨1, 1, 0⟩⟩, ⟨.identifier "a", ⟨1, 4, 3⟩⟩, ⟨.newline, ⟨1, 5, 4⟩⟩,
      ⟨.keyword .then_, ⟨2, 1, 5⟩⟩, ⟨.identifier "b", ⟨2, 6, 10⟩⟩, ⟨.newline, ⟨2, 7, 11⟩⟩,
      ⟨.keyword .else_, ⟨3, 1, 12⟩⟩, ⟨.identifier "c", ⟨3, 6, 17⟩⟩] =
    .ok ⟨[⟨.conditional ⟨.identifier "a", ⟨1, 4, 3⟩⟩ ⟨.identifier "b", ⟨2, 6, 10⟩⟩
      (some ⟨.identifier "c", ⟨3, 6, 17⟩⟩), ⟨1, 1, 0⟩⟩]⟩ := by
  have htight : parseTokens [⟨.keyword .if_, ⟨1, 1, 0⟩⟩, ⟨.identifier "a", ⟨1, 4, 3⟩⟩,
      ⟨.keyword .then_, ⟨2, 1, 5⟩⟩, ⟨.identifier "b", ⟨2, 6, 10⟩⟩,
      ⟨.keyword .else_, ⟨3, 1, 12⟩⟩, ⟨.identifier "c", ⟨3, 6, 17⟩⟩] =
    .ok ⟨[⟨.conditional ⟨.identifier "a", ⟨1, 4, 3⟩⟩ ⟨.identifier "b", ⟨2, 6, 10⟩⟩
      (some ⟨.identifier "c", ⟨3, 6, 17⟩⟩), ⟨1, 1, 0⟩⟩]⟩ := rfl
  refine (parseTokens_breaksInserted ?_ _).1 htight
  exact .keep (.keep (.insert rfl rfl (.keep (.insert rfl rfl (.keep .nil)))))

end DrakeSyntax
