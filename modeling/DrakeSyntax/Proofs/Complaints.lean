import DrakeSyntax.Proofs.Coupling.Diagonal
import DrakeSyntax.Proofs.Placement

/-!
# What parse errors say

An error may have been raised where reading stopped, at a token that was kept for later, in the
farther one of two trials or long ago inside a bracket that is remembered. However it came about, it
describes a token of the text and says what is wrong with it (`parse_error_describes`).
-/

namespace DrakeSyntax

/-- **A parse error describes a token of the text.** It has the position of the token and calls what
was found what the token is called. It has a note exactly if it lists nothing that could have stood
there, so it is never worded just as something unexpected. -/
theorem parse_error_describes {text : String} {ts : List PlacedToken} {e : SyntaxError}
    (hts : tokenize text = .ok ts) (h : parse text = .error e) :
    ∃ e' : ParseError, e = .parse e' ∧
      (∃ t ∈ ts, e'.position = t.position ∧ e'.found = t.token.describe) ∧
      (e'.note.isSome ↔ e'.expected = []) ∧ ¬ BeginsBare e'.summary := by
  rw [parse_of_tokenize hts] at h
  cases hparse : parseTokens ts with
  | ok p =>
    rw [hparse] at h
    cases h
  | error e' =>
    rw [hparse] at h
    cases h
    obtain ⟨hplace, hworded⟩ := raisedAt_of_parseTokens hparse
    rw [(endsInput_tokenize hts).1.closeTokens_eq] at hplace
    exact ⟨e', rfl, hplace, hworded.isSome_note, hworded.not_beginsBare⟩

/-- The operator has been taken when the error that describes it is raised. -/
theorem parse_error_describes_operator :
    let e : SyntaxError := .parse ⟨⟨1, 9, 8⟩, [], "'+='", some "const assignment cannot be augmented"⟩
    ∃ ts, tokenize "const a += 1" = .ok ts ∧ parse "const a += 1" = .error e ∧
      ∃ e' : ParseError, e = .parse e' ∧
        (∃ t ∈ ts, e'.position = t.position ∧ e'.found = t.token.describe) ∧
        (e'.note.isSome ↔ e'.expected = []) ∧ ¬ BeginsBare e'.summary := by
  intro e
  have htokens : tokenize "const a += 1" = .ok [⟨.keyword .const, ⟨1, 1, 0⟩⟩,
      ⟨.identifier "a", ⟨1, 7, 6⟩⟩, ⟨.punctuator .plusEqual, ⟨1, 9, 8⟩⟩,
      ⟨.number ⟨"1", .decimal⟩, ⟨1, 12, 11⟩⟩, ⟨.endOfInput, ⟨1, 13, 12⟩⟩] :=
    eq_ok_of_toOption (by decide +kernel)
  have hparse : parse "const a += 1" = .error e := by
    have hfails : (match parse "const a += 1" with
        | .error e => some e
        | .ok _ => none) = some e := by
      decide +kernel
    split at hfails
    · next e' he =>
      rw [he, Option.some.inj hfails]
    · cases hfails
  exact ⟨_, htokens, hparse, parse_error_describes htokens hparse⟩

end DrakeSyntax
