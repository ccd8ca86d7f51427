import DrakeSyntax.Proofs.Spelling

/-!
# Wordings

The wording of an error is a text on one line (`LexFault.Shown.oneLine`,
`ParseError.Worded.oneLine`). Most of its parts are fixed; the others are tokens of the source, which
are shown as they could be written, the characters of a string escaped, and single characters of the
source, none of which is a line break. An error that a parser raises lists choices or has a note
(`ParseError.Worded`), so it never says just that something is unexpected.
-/

namespace DrakeSyntax

/-- The text does not break the line. -/
def OneLine (s : String) : Prop := '\n' ∉ s.toList

instance (s : String) : Decidable (OneLine s) := inferInstanceAs (Decidable (_ ∉ _))

example : OneLine "expected expression" := by decide

namespace OneLine

variable {s t : String}

theorem append (hs : OneLine s) (ht : OneLine t) : OneLine (s ++ t) := by
  unfold OneLine at *
  rw [String.toList_append, List.mem_append]
  exact fun h => h.elim hs ht

theorem ofList {w : List Char} (h : '\n' ∉ w) : OneLine (String.ofList w) := by
  unfold OneLine
  rwa [String.toList_ofList]

theorem of_unbroken (h : ∀ c ∈ s.toList, breaksLine c = false) : OneLine s := by
  intro hmem
  cases h _ hmem

end OneLine

/-! ### Numbers and quoted texts -/

theorem oneLine_hexadecimal (n : Nat) : '\n' ∉ Text.hexadecimal n := by
  have hdigit : ∀ d < 16, '\n' ≠ Nat.digitChar d := by decide
  induction n using Nat.strong_induction_on with
  | _ n ih =>
    unfold Text.hexadecimal at *
    rw [Nat.toDigits_eq_if (by decide)]
    split
    · next hn => exact mt List.mem_singleton.1 (hdigit n hn)
    · next hn =>
      rw [List.mem_append, List.mem_singleton]
      rintro (hmem | hmem)
      · exact ih (n / 16) (by omega) hmem
      · exact hdigit (n % 16) (Nat.mod_lt n (by decide)) hmem

theorem oneLine_toString (n : Nat) : OneLine (toString n) := by
  refine .ofList fun hmem => ?_
  have hdigit := Nat.isDigit_of_mem_toDigits (by decide) (by decide) hmem
  revert hdigit
  decide

theorem oneLine_quoted (s : String) : OneLine (Text.quoted s) := by
  have hchar (c : Char) : '\n' ∉ Text.quotedChar c := by
    unfold Text.quotedChar
    split
    all_goals try decide
    next hquote hslash htab hr hn hnul =>
      split
      · exact mt List.mem_singleton.1 (Ne.symm hn)
      · have hhex := oneLine_hexadecimal c.toNat
        simp [hhex]
  refine .ofList ?_
  have hbody : '\n' ∉ s.toList.flatMap Text.quotedChar := by
    rw [List.mem_flatMap]
    rintro ⟨c, -, hc⟩
    exact hchar c hc
  simp [hbody]

/-! ### Tokens -/

/-- Whether the token is always written in the same way. -/
def Token.isFixed : Token → Bool
  | .identifier _ | .string _ | .number _ => false
  | _ => true

/-- What a token that is looked for is called. -/
theorem Token.oneLine_of_isFixed {t : Token} (h : t.isFixed) : OneLine t.describe := by
  cases t with
  | identifier | string | number => cases h
  | keyword k => decide +revert +kernel
  | punctuator p => decide +revert +kernel
  | newline | endOfInput => decide

/-- What a token of a source is called. -/
theorem Lexeme.oneLine {w : List Char} {t : Token} (h : Lexeme w t) : OneLine t.describe := by
  have hquotes {s t u : String} (hs : OneLine s) (ht : ∀ c ∈ t.toList, breaksLine c = false)
      (hu : OneLine u) : OneLine (s ++ t ++ u) :=
    (hs.append (.of_unbroken ht)).append hu
  cases h with
  | keyword | punctuator => exact Token.oneLine_of_isFixed rfl
  | @identifier c w hname hnone =>
    refine hquotes (by decide) ?_ (by decide)
    rw [String.toList_ofList]
    exact (Lexeme.identifier hname hnone).unbroken
  | number hn => exact hquotes (by decide) hn.display.unbroken (by decide)
  | string => exact (by decide : OneLine "string ").append (oneLine_quoted _)

theorem oneLine_of_tokenize {text : String} {ts : List PlacedToken} (h : tokenize text = .ok ts) :
    ∀ t ∈ ts, OneLine t.token.describe := by
  intro t ht
  by_cases hfixed : t.token.isFixed
  · exact Token.oneLine_of_isFixed hfixed
  · have hne {u : Token} (hu : u.isFixed) : t.token ≠ u := by
      rintro hu'
      exact hfixed (hu' ▸ hu)
    obtain ⟨w, hw⟩ := exists_lexeme_of_tokenize h ht (hne rfl) (hne rfl)
    exact hw.oneLine

/-! ### Errors -/

theorem LexFault.Shown.oneLine {fault : LexFault} (h : fault.Shown) : OneLine fault.message := by
  have hcharacter {c : Char} (hc : c ≠ '\n') : OneLine c.toString := by
    unfold OneLine
    simpa using hc.symm
  cases fault with
  | unexpectedCharacter c =>
    have hc : c ≠ '\n' := by simpa [Shown, character?] using h
    exact ((by decide : OneLine "unexpected character '").append (hcharacter hc)).append (by decide)
  | invalidDigit c base =>
    have hc : c ≠ '\n' := by simpa [Shown, character?] using h
    have hbase : OneLine base.word := by cases base <;> decide
    exact ((((by decide : OneLine "invalid digit '").append (hcharacter hc)).append
      (by decide)).append hbase).append (by decide)
  | missingDigits base => cases base <;> decide
  | unterminatedString | unterminatedComment | misplacedSeparator | missingExponent => decide

/-- What should have been found is listed on one line. -/
theorem oneLine_alternatives {choices : List String} (h : ∀ s ∈ choices, OneLine s) :
    OneLine (ParseError.alternatives choices) := by
  fun_induction ParseError.alternatives choices with
  | case1 => decide
  | case2 choice => exact h choice (List.mem_singleton_self choice)
  | case3 choice last =>
    obtain ⟨hchoice, hlast⟩ := List.forall_mem_cons.1 h
    exact (hchoice.append (by decide)).append (hlast last (List.mem_singleton_self last))
  | case4 choice choices hpair hsingle ih =>
    obtain ⟨hchoice, hchoices⟩ := List.forall_mem_cons.1 h
    exact (hchoice.append (by decide)).append (ih hchoices)

/-! ### How a parser words its errors -/

/-- An error can list the choices: there is one at least, and each is worded on one line. -/
def Listable (choices : List String) : Prop := choices ≠ [] ∧ ∀ s ∈ choices, OneLine s

instance (choices : List String) : Decidable (Listable choices) :=
  inferInstanceAs (Decidable (_ ≠ _ ∧ ∀ s ∈ _, OneLine s))

theorem Listable.singleton {s : String} (h : OneLine s) : Listable [s] :=
  ⟨List.cons_ne_nil s [], List.forall_mem_singleton.2 h⟩

/-- The text begins like the wording of an error that has neither choices nor a note. -/
def BeginsBare (s : String) : Prop := "unexpected ".toList <+: s.toList

instance (s : String) : Decidable (BeginsBare s) := inferInstanceAs (Decidable (_ <+: _))

/-- An error can have the note: it says something and is worded on one line. -/
def Notable (note : String) : Prop := OneLine note ∧ ¬ BeginsBare note

instance (note : String) : Decidable (Notable note) := inferInstanceAs (Decidable (_ ∧ ¬ _))

namespace ParseError

/-- The error lists what could have stood in place of the token, or it has a note. -/
inductive Worded : ParseError → Prop
  | unexpected {expected} (t : PlacedToken) : Listable expected → Worded (.unexpected expected t)
  | structural {note} (t : PlacedToken) : Notable note → Worded (.structural note t)

variable {e : ParseError}

/-- A note stands in place of choices. -/
theorem Worded.isSome_note (h : e.Worded) : e.note.isSome ↔ e.expected = [] := by
  cases h with
  | unexpected t hexpected => exact ⟨Bool.noConfusion, fun hnil => absurd hnil hexpected.1⟩
  | structural t hnote => exact ⟨fun _ => rfl, fun _ => rfl⟩

theorem summary_unexpected {expected : List String} (h : expected ≠ []) (t : PlacedToken) :
    (unexpected expected t).summary =
      "expected " ++ alternatives expected ++ ", found " ++ t.token.describe := by
  cases expected with
  | nil => exact absurd rfl h
  | cons choice choices => rfl

theorem Worded.not_beginsBare (h : e.Worded) : ¬ BeginsBare e.summary := by
  cases h with
  | unexpected t hexpected =>
    -- the second letters differ
    rw [summary_unexpected hexpected.1, String.append_assoc, String.append_assoc]
    rintro ⟨rest, hrest⟩
    rw [String.toList_append] at hrest
    cases hrest
  | structural t hnote => exact hnote.2

theorem Worded.oneLine (h : e.Worded) (hfound : OneLine e.found) : OneLine e.summary := by
  cases h with
  | unexpected t hexpected =>
    rw [summary_unexpected hexpected.1]
    exact (((by decide : OneLine "expected ").append (oneLine_alternatives hexpected.2)).append
      (by decide)).append hfound
  | structural t hnote => exact hnote.1

end ParseError

end DrakeSyntax
