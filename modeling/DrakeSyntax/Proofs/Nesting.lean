import DrakeSyntax.Proofs.Account.Program
import DrakeSyntax.Proofs.Leading

/-!
# Nesting of brackets

Any of the three closing tokens ends a list, whichever one opened it. Nevertheless what is read is
nested properly: each phrase that opens something looks for its own closing token behind the list,
and a trial that fails gives back all it has taken.

* `ParserState.Among.expression_balanced`: an expression takes balanced tokens.
* `ParserState.Among.program_balanced`: a program takes balanced tokens up to an end token.
* `balanced_of_read`: **whatever is read is balanced.**
-/

namespace DrakeSyntax

open DrakeSyntax.Parser

/-- The end is not among tokens that go on from one nesting to another. -/
theorem ne_endOfInput_of_shiftAll {k l : List Token} {t : Token} {ts : List Token}
    (h : shiftAll ts k = some l) (ht : t ∈ ts) : t ≠ .endOfInput := by
  induction ts generalizing k with
  | nil => cases ht
  | cons u us ih =>
    obtain ⟨m, hshift, hrest⟩ := Option.bind_eq_some_iff.1 h
    rcases List.mem_cons.1 ht with rfl | ht
    · exact Token.ne_endOfInput_of_shift hshift
    · exact ih hrest ht

/-- Balanced tokens in front of an end token are all that is in front of the first one. -/
theorem Balanced.beforeEnd_append {us : List Token} (h : Balanced us) (ts : List Token) :
    beforeEnd (us ++ .endOfInput :: ts) = us := by
  have hnone : ∀ u ∈ us, (u != .endOfInput) = true := fun u hu =>
    bne_iff_ne.2 (ne_endOfInput_of_shiftAll h hu)
  rw [beforeEnd, List.takeWhile_append_of_pos hnone, List.takeWhile_cons_of_neg (by simp),
    List.append_nil]

/-- A program ends at an end token. -/
theorem current_of_programWith {g : Inner} {s s' : ParserState} {p : Program}
    (h : programWith g s = .ok p s') : s'.cursor.current.token = .endOfInput := by
  unfold programWith at h
  obtain ⟨l, s₁, -, h⟩ := bind_eq_ok h
  rw [bind_of_ok (isAt_run _ s₁)] at h
  by_cases hat : s₁.cursor.current.token = .endOfInput
  · rw [beq_iff_eq.2 hat] at h
    cases h
    exact hat
  · rw [beq_false_of_ne hat] at h
    cases h

namespace ParserState.Among

variable {ts : List PlacedToken} {s s' : ParserState}

/-- An expression takes balanced tokens, wherever among its tokens the parser is set. -/
theorem expression_balanced (hs : s.Among ts) {n : Node} (h : Parser.expression s = .ok n s') :
    ∃ us, s.cursor.rest = us ++ s'.cursor.rest ∧ Balanced (us.map (·.token)) := by
  obtain ⟨s₁, hrun, hcursor⟩ :=
    ok_of_ending_eq (hs.ending_expression (.none false) (Nat.le_refl _)).symm h
  have hsteady := steadyAlone_phrases s.cursor.rest.length s.cursor []
  have hpasses := (hsteady.expression []).passes hs.cursor_ended
  change (phrases _).expression s = .ok n s₁ at hrun
  rw [hrun] at hpasses
  obtain ⟨us, hrest, -, hshift⟩ := hpasses.passed
  exact ⟨us, hcursor ▸ hrest, hshift⟩

/-- A program takes balanced tokens up to an end token. -/
theorem program_balanced (hs : s.Among ts) {p : Program} (h : Parser.program s = .ok p s') :
    Balanced (beforeEnd s.tokens) := by
  have hsteady := steadyAlone_phrases s.cursor.rest.length s.cursor []
  have hexact : (Coupling.diagonal s.cursor []).Exact [] := fun _ _ _ => id
  have hpasses := (matches_programWith hexact hsteady).passes hs.cursor_ended
  have hending := hs.ending_program (.none false) (Nat.le_refl _)
  change ending (programWith (phrases _) s) = _ at hending
  cases hrun : programWith (phrases s.cursor.rest.length) s with
  | error e s₁ =>
    rw [hrun, h] at hending
    cases hending
  | ok p₁ s₁ =>
    rw [hrun] at hpasses
    obtain ⟨⟨us, hrest, -, hbalanced⟩, hended⟩ := hpasses
    -- behind what is taken stands the end token that the program ends at
    have hend := current_of_programWith hrun
    obtain ⟨⟨index, rest⟩, brackets⟩ := s₁
    cases rest with
    | nil =>
      obtain ⟨t, ht, -⟩ := hended
      cases ht
    | cons e rest =>
      have he : e.token = .endOfInput := hend
      have htokens : s.tokens = us.map (·.token) ++ .endOfInput :: rest.map (·.token) := by
        rw [ParserState.tokens, hrest, List.map_append, List.map_cons, he]
      rwa [htokens, Balanced.beforeEnd_append hbalanced]

end ParserState.Among

/-- **Whatever is read is balanced.** The tokens of a program in front of the first end token are
nested properly, and so are those that an expression takes, wherever among the tokens a parser is
set: every closing token closes what an opening token of its kind has opened last. -/
theorem balanced_of_read (ts : List PlacedToken) :
    (∀ p, parseTokens ts = .ok p → Balanced (beforeEnd (ts.map (·.token)))) ∧
      ∀ s n s', s.Among ts → Parser.expression s = .ok n s' →
        ∃ us, s.cursor.rest = us ++ s'.cursor.rest ∧ Balanced (us.map (·.token)) := by
  refine ⟨fun p h => ?_, fun s n s' hs h => hs.expression_balanced h⟩
  unfold parseTokens at h
  cases hrun : Parser.program (.ofTokens ts) with
  | error e s =>
    rw [hrun] at h
    cases h
  | ok p' s =>
    rw [← beforeEnd_closeTokens]
    exact (ParserState.Among.ofTokens ts).program_balanced hrun

/-- The program `x[(y)], {}` is nested properly, and so is the index that its first expression
takes. -/
theorem balanced_of_read_index :
    ∃ (ts : List PlacedToken) (p : Program) (n : Node) (s' : ParserState),
      parseTokens ts = .ok p ∧ Parser.expression (.ofTokens ts) = .ok n s' ∧
      Balanced [.identifier "x", .punctuator .leftBracket, .punctuator .leftParen, .identifier "y",
        .punctuator .rightParen, .punctuator .rightBracket, .punctuator .comma,
        .punctuator .leftBrace, .punctuator .rightBrace] ∧
      ∃ us, closeTokens ts = us ++ s'.cursor.rest ∧ us.length = 6 ∧
        Balanced (us.map (·.token)) := by
  let ts : List PlacedToken := ([.identifier "x", .punctuator .leftBracket,
    .punctuator .leftParen, .identifier "y", .punctuator .rightParen, .punctuator .rightBracket,
    .punctuator .comma, .punctuator .leftBrace, .punctuator .rightBrace] : List Token).map
    fun t => ⟨t, .start⟩
  obtain ⟨p, hprogram⟩ : ∃ p, parseTokens ts = .ok p := ⟨_, rfl⟩
  obtain ⟨n, s', hexpression, hrest⟩ : ∃ n s', Parser.expression (.ofTokens ts) = .ok n s' ∧
      s'.cursor.rest = (closeTokens ts).drop 6 := ⟨_, _, rfl, rfl⟩
  obtain ⟨us, hus, hbalanced⟩ := (balanced_of_read ts).2 _ n s' (.ofTokens ts) hexpression
  refine ⟨ts, p, n, s', hprogram, hexpression, (balanced_of_read ts).1 p hprogram, us, hus, ?_,
    hbalanced⟩
  have hlength := congrArg List.length hus
  rw [hrest, List.length_append] at hlength
  have hall : (ParserState.ofTokens ts).cursor.rest.length = 10 := rfl
  have hleft : ((closeTokens ts).drop 6).length = 4 := rfl
  omega

end DrakeSyntax
