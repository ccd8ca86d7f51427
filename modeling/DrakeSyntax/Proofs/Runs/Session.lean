import DrakeSyntax.Proofs.Memo
import DrakeSyntax.Proofs.Runs.Operand

/-!
# Reading from the first token

What the phrases of a depth read, a parser reads that is made from the tokens, though it
remembers outcomes of bracketed phrases.
-/

namespace DrakeSyntax

open DrakeSyntax.Parser

variable {ts : List PlacedToken} {w : List Token}

/-- A parser that is made from tokens reads the expression that phrases read which remember nothing
and are deep enough. -/
theorem alike_expression_ofTokens (ts : List PlacedToken) {depth : Nat}
    (hdepth : (closeTokens ts).length ≤ depth) :
    Alike (.ofTokens ts) (closeTokens ts).length (Parser.expression (.ofTokens ts))
      ((phrases depth).expression (.ofTokens ts)) := by
  have hinner := Inner.agree_nest_remembering (w := .ofTokens ts) (.of_faithful rfl)
    (Inner.none true) rfl (Nat.le_succ (closeTokens ts).length) hdepth
  exact hinner.expression.weak _ _ _ (ParserState.Alike.ofTokens ts).on (Nat.le_refl _)
    (faithful_empty _)

/-- A program is read from tokens as the phrases read it which remember nothing. -/
theorem parseTokens_eq (ts : List PlacedToken) :
    parseTokens ts =
      match programWith (phrases ((closeTokens ts).length + 1)) (.ofTokens ts) with
      | .ok p _ => .ok p
      | .error e _ => .error e := by
  have halike : Alike (.ofTokens ts) ((closeTokens ts).length + 1) (Parser.program (.ofTokens ts))
      (programWith (phrases ((closeTokens ts).length + 1)) (.ofTokens ts)) :=
    alike_program (w := .ofTokens ts) rfl (ParserState.Alike.ofTokens ts).on (faithful_empty _) ∅
  unfold parseTokens
  generalize Parser.program (.ofTokens ts) = r at halike ⊢
  generalize programWith (phrases ((closeTokens ts).length + 1)) (.ofTokens ts) = r' at halike ⊢
  cases halike with
  | ok a on room table => rfl
  | error e on table => rfl

theorem closeTokens_eq (hts : ts.map (·.token) = w ++ [.endOfInput]) : closeTokens ts = ts := by
  have hlast : (ts.map (·.token)).getLast? = some .endOfInput := by simp [hts]
  rw [List.getLast?_map, Option.map_eq_some_iff] at hlast
  obtain ⟨t, ht, hend⟩ := hlast
  simp only [closeTokens, ht, hend, if_true]

theorem tokens_ofTokens (hts : ts.map (·.token) = w ++ [.endOfInput]) :
    (ParserState.ofTokens ts).tokens = w ++ [.endOfInput] := by
  simp only [ParserState.tokens, ParserState.ofTokens, closeTokens_eq hts, hts]

/-- An expression that is read to the end of the tokens. -/
theorem expression_of_reads {Q : Node → Prop} (hts : ts.map (·.token) = w ++ [.endOfInput])
    (h : Reads (phrases (ts.length + 1)).expression (w ++ [.endOfInput]) [.endOfInput] Q) :
    ∃ n s, Parser.expression (.ofTokens ts) = .ok n s ∧ Q n ∧
      s.tokens = [.endOfInput] ∧ s.cursor.index = w.length := by
  have hrun := h _ (tokens_ofTokens hts)
  -- the tokens have their end already, so the depth is known
  have hdepth : (closeTokens ts).length ≤ ts.length + 1 := by
    rw [closeTokens_eq hts]
    exact Nat.le_succ _
  have halike := alike_expression_ofTokens ts hdepth
  cases hexpression : (phrases (ts.length + 1)).expression (.ofTokens ts) with
  | error e s =>
    rw [hexpression] at hrun
    exact hrun.elim
  | ok n s =>
    rw [hexpression] at hrun halike
    obtain ⟨hindex, htokens, hn⟩ := hrun
    -- the parser comes to the same as the phrases
    generalize Parser.expression (.ofTokens ts) = result at halike ⊢
    cases halike with
    | ok a on room table =>
      refine ⟨n, _, rfl, hn, htokens, ?_⟩
      rw [htokens] at hindex
      simpa [ParserState.ofTokens] using hindex

/-- A program that is read from all of the tokens. -/
theorem parseTokens_of_reads {Q : Program → Prop} (hts : ts.map (·.token) = w ++ [.endOfInput])
    (h : Reads (programWith (phrases (ts.length + 1))) (w ++ [.endOfInput]) [.endOfInput] Q) :
    ∃ p, parseTokens ts = .ok p ∧ Q p := by
  have hrun := h _ (tokens_ofTokens hts)
  rw [parseTokens_eq, closeTokens_eq hts]
  cases hprogram : programWith (phrases (ts.length + 1)) (.ofTokens ts) with
  | error e s =>
    rw [hprogram] at hrun
    exact hrun.elim
  | ok p s =>
    rw [hprogram] at hrun
    exact ⟨p, rfl, hrun.2.2⟩

/-- A text that can be cut into tokens is read from them. -/
theorem parse_of_tokenize {text : String} {ts : List PlacedToken} (h : tokenize text = .ok ts) :
    parse text = (parseTokens ts).mapError .parse := by
  unfold parse
  rw [h]
  rfl

end DrakeSyntax
