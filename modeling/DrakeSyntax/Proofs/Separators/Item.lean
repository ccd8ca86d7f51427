import DrakeSyntax.Proofs.Coupling.Excerpt
import DrakeSyntax.Proofs.Placement
import DrakeSyntax.Proofs.Separators.Atom

/-!
# Items that are expressions by themselves

An item that is read as an expression with the end of the input behind it is read alike in a list,
whatever ends it there (`Item.Alone.readBy`).
-/

namespace DrakeSyntax

open DrakeSyntax.Parser

/-- With the end of the input behind it, the item is read to its end as the expression that it is.
So there is no end token in it. -/
def Item.Alone (item : Item) : Prop :=
  ∃ position s, Parser.expression (.ofTokens (item.tokens ++ [⟨.endOfInput, position⟩])) =
    .ok item.node s ∧ s.cursor.rest = [⟨.endOfInput, position⟩]

variable {g : Inner} {t : Token} {us : List Token} {item : Item} {depth : Nat}

/-! ### Where no expression begins -/

theorem fails_cascade {operand : Parser Node} (h : Fails operand us) (r : Nat)
    (levels : List OperatorLevel) : Fails (cascade r operand levels) us := by
  induction levels with
  | nil => exact h
  | cons level levels ih => exact ih.bind

theorem fails_expressionWith (hform : formAt? g t = none) (hlambda : startsLambda t = false)
    (htarget : startsTarget t = false) (hoperand : t.opensOperand = false) :
    Fails (expressionWith g) (t :: us) := by
  refine Runs.peek_bind fun position => ?_
  simp only [hform]
  refine Fails.attemptIf_bind (fun h => ?_) (Fails.attemptIf_bind (fun h => ?_) ?_)
  · rw [hlambda] at h
    cases h
  · rw [htarget] at h
    cases h
  · unfold plainExpression
    dsimp only
    split
    · cases htarget
    · cases htarget
    · cases htarget
    · exact fails_cascade (fails_unary hoperand) _ _

/-- No expression begins with a keyword that goes on with the one before it. -/
theorem fails_expressionWith_of_continues (h : t.continues) :
    Fails (expressionWith g) (t :: us) := by
  unfold Token.continues at h
  split at h
  · exact fails_expressionWith rfl rfl rfl rfl
  · exact fails_expressionWith rfl rfl rfl rfl
  · exact fails_expressionWith rfl rfl rfl rfl
  · exact fails_expressionWith rfl rfl rfl rfl
  · cases h

theorem stalls_expressionWith : Stalls (expressionWith g) :=
  Stalls.peek_bind fun _ => expressionWith_of_halts

/-! ### From the end of the input to the end of an item -/

namespace Item.Alone

/-- The phrases of a depth read the item as well. -/
theorem exists_run (h : item.Alone) (hdepth : item.tokens.length < depth) :
    ∃ position s, (phrases depth).expression
        (.ofTokens (item.tokens ++ [⟨.endOfInput, position⟩])) = .ok item.node s ∧
      (ParserState.ofTokens (item.tokens ++ [⟨.endOfInput, position⟩])).cursor.rest =
        item.tokens ++ [⟨.endOfInput, position⟩] ∧
      s.cursor.rest = [⟨.endOfInput, position⟩] := by
  obtain ⟨position, s, hrun, hrest⟩ := h
  have hclosed : closeTokens (item.tokens ++ [⟨.endOfInput, position⟩]) =
      item.tokens ++ [⟨.endOfInput, position⟩] := EndsInput.closeTokens_eq (by simp [EndsInput])
  have hlength : (closeTokens (item.tokens ++ [⟨.endOfInput, position⟩])).length ≤ depth := by
    rw [hclosed, List.length_append, List.length_singleton]
    exact hdepth
  have halike := alike_expression_ofTokens _ hlength
  rw [hrun] at halike
  generalize hresult : (phrases depth).expression
    (.ofTokens (item.tokens ++ [⟨.endOfInput, position⟩])) = result at halike
  cases halike with
  | ok node on room table => exact ⟨position, _, hresult, hclosed, hrest⟩

variable {w : List PlacedToken}

theorem endsItem_endOfInput (position : Position) : EndsItem [⟨.endOfInput, position⟩] :=
  endsItem_close rfl ⟨_, List.mem_singleton_self _, rfl⟩

/-- The brackets of the item are closed. -/
theorem balanced (h : item.Alone) : Balanced (item.tokens.map (·.token)) := by
  obtain ⟨position, s, hrun, hstart, hrest⟩ := h.exists_run (Nat.lt_succ_self _)
  generalize ParserState.ofTokens (item.tokens ++ [⟨.endOfInput, position⟩]) = s₀ at hrun hstart
  have hended : s₀.cursor.Ended :=
    ⟨_, hstart ▸ List.mem_append_right _ (List.mem_singleton_self _), rfl⟩
  have hpasses := ((steadyAlone_phrases (item.tokens.length + 1) s₀.cursor []).expression []).passes
    hended
  rw [hrun] at hpasses
  obtain ⟨ts, hts, -, hshift⟩ := hpasses.passed
  rw [hstart, hrest, List.append_left_inj] at hts
  rwa [hts]

/-- The item is read in front of anything that ends it. -/
theorem exists_reads (h : item.Alone) (hdepth : item.tokens.length < depth) (hw : EndsItem w)
    {s : ParserState} (hs : s.cursor.rest = item.tokens ++ w) :
    ∃ r, (phrases depth).expression s = .ok item.node r ∧ r.cursor.rest = w := by
  obtain ⟨position, s₀, hrun, hstart, hrest⟩ := h.exists_run hdepth
  have hend := endsItem_endOfInput position
  exact Coupling.Matches.elsewhere hend.toEndsExpression hw.toEndsExpression
    (fun offset => (steady_phrases (Coupling.colonless_excerpt hend hw offset) depth).expression [])
    h.balanced hstart hrun hrest hs (Nat.zero_le _)

/-- The first token of the item neither ends an item nor goes on with the one before. -/
theorem opens (h : item.Alone) :
    ∃ t ts, item.tokens = t :: ts ∧ t.token.separates = false ∧ t.token.continues = false := by
  obtain ⟨position, s₀, hrun, hstart, hrest⟩ := h.exists_run (Nat.lt_succ_self _)
  have hstalls : Stalls (phrases (item.tokens.length + 1)).expression := stalls_expressionWith
  generalize hs : ParserState.ofTokens (item.tokens ++ [⟨.endOfInput, position⟩]) = s at hrun hstart
  have hseparates : s.cursor.current.token.separates = false := by
    by_contra hseparates
    obtain ⟨e, s', he⟩ := hstalls s (Token.halts_of_separates (eq_true_of_ne_false hseparates))
    rw [hrun] at he
    cases he
  cases htokens : item.tokens with
  | nil =>
    rw [htokens, List.nil_append] at hstart
    rw [current_of_rest hstart] at hseparates
    cases hseparates
  | cons t ts =>
    rw [htokens, List.cons_append] at hstart
    rw [current_of_rest hstart] at hseparates
    refine ⟨t, ts, rfl, hseparates, ?_⟩
    by_contra hcontinues
    have hfails : Fails (phrases (item.tokens.length + 1)).expression s.tokens := by
      rw [ParserState.tokens, hstart, List.map_cons]
      exact fails_expressionWith_of_continues (eq_true_of_ne_false hcontinues)
    have hfalse := hfails s rfl
    rw [hrun] at hfalse
    exact hfalse.2

/-- **An expression by itself is read alike in a list.** -/
theorem readBy (h : item.Alone) (hdepth : item.tokens.length < depth) :
    item.ReadBy (phrases depth).expression where
  opens := h.opens
  reads w hw s hs := by
    obtain ⟨r, hrun, hrest⟩ := h.exists_reads hdepth hw hs
    rw [hrun]
    exact ⟨rfl, hrest⟩

end Item.Alone

end DrakeSyntax
