import DrakeSyntax.Proofs.Spelling.Tokenize
import Mathlib.Computability.RegularExpressions

/-!
# Numbers as a regular language

The spellings of the numbers of a base are the words of a regular expression (`NumberBase.numeral`):
the mark of the base and digits with single separators, or a decimal number with an optional fraction,
exponent and imaginary suffix. A text without blanks, line breaks and comments is read as one number if
and only if it is such a word, and the digits that the number keeps are those of the text without
separators (`tokenize_number_iff`).

* `digits_iff`, `fraction_iff`, `exponent_iff`: each part of a number and the expression for it.
* `numeral_iff`: whole numbers.
-/

namespace DrakeSyntax

open RegularExpression

variable {b : NumberBase} {c : Char} {w ds : List Char}

/-! ### Expressions for characters -/

/-- One of the characters. -/
def oneOf (cs : List Char) : RegularExpression Char := (cs.map char).sum

/-- The characters in a row. -/
def exactly (cs : List Char) : RegularExpression Char := (cs.map char).prod

/-- What the expression matches, or nothing. -/
def optionally (r : RegularExpression Char) : RegularExpression Char := 1 + r

theorem mem_char : w ∈ (char c).matches' ↔ w = [c] := by
  rw [matches'_char]
  rfl

theorem mem_oneOf {cs : List Char} : w ∈ (oneOf cs).matches' ↔ ∃ c ∈ cs, w = [c] := by
  induction cs with
  | nil => simp [oneOf]
  | cons c cs ih =>
    rw [oneOf, List.map_cons, List.sum_cons, matches'_add, Language.mem_add, mem_char,
      List.exists_mem_cons_iff]
    exact or_congr_right ih

theorem mem_exactly {cs : List Char} : w ∈ (exactly cs).matches' ↔ w = cs := by
  induction cs generalizing w with
  | nil => rfl
  | cons c cs ih =>
    rw [exactly, List.map_cons, List.prod_cons, matches'_mul, Language.mem_mul]
    constructor
    · rintro ⟨u, hu, v, hv, rfl⟩
      rw [mem_char.1 hu, ih.1 hv, List.singleton_append]
    · rintro rfl
      exact ⟨[c], mem_char.2 rfl, cs, ih.2 rfl, rfl⟩

theorem mem_optionally {r : RegularExpression Char} :
    w ∈ (optionally r).matches' ↔ w = [] ∨ w ∈ r.matches' := by
  rw [optionally, matches'_add, Language.mem_add]
  rfl

/-! ### Expressions for numbers -/

namespace NumberBase

/-- One more digit, perhaps with a separator in front of it. -/
def moreDigit (b : NumberBase) : RegularExpression Char := optionally (char '_') * oneOf b.digits

/-- Digits, perhaps with single separators between them. -/
def digitRun (b : NumberBase) : RegularExpression Char := oneOf b.digits * star b.moreDigit

/-- A fraction, if there is one. -/
def fraction : RegularExpression Char := optionally (char '.' * digitRun decimal)

/-- An exponent, if there is one. -/
def exponent : RegularExpression Char :=
  optionally (oneOf ['e', 'E'] * (optionally (oneOf ['+', '-']) * digitRun decimal))

/-- An imaginary suffix, if there is one. -/
def imaginary : RegularExpression Char := optionally (oneOf ['j', 'J'])

/-- How the numbers of the base are written. -/
def numeral : NumberBase → RegularExpression Char
  | decimal => digitRun decimal * (fraction * (exponent * imaginary))
  | b => exactly b.mark.toList * (optionally (char '_') * digitRun b)

/-- A digit is no other character than a letter or a digit. -/
theorem ne_of_accepts {x : Char} (h : b.accepts c) (hx : x.isAlphanum = false) : c ≠ x := by
  rintro rfl
  rw [isAlphanum_of_accepts h] at hx
  cases hx

theorem mem_digitRun : w ∈ b.digitRun.matches' ↔
    ∃ c v, b.accepts c ∧ v ∈ (star b.moreDigit).matches' ∧ w = c :: v := by
  rw [digitRun, matches'_mul, Language.mem_mul]
  constructor
  · rintro ⟨u, hu, v, hv, rfl⟩
    obtain ⟨c, hc, rfl⟩ := mem_oneOf.1 hu
    exact ⟨c, v, accepts_iff.2 hc, hv, rfl⟩
  · rintro ⟨c, v, hc, hv, rfl⟩
    exact ⟨[c], mem_oneOf.2 ⟨c, accepts_iff.1 hc, rfl⟩, v, hv, rfl⟩

end NumberBase

/-! ### Digits -/

/-- The characters that are not separators. -/
def withoutSeparators (w : List Char) : List Char := w.filter (· ≠ '_')

theorem withoutSeparators_cons (hc : c ≠ '_') (w : List Char) :
    withoutSeparators (c :: w) = c :: withoutSeparators w :=
  List.filter_cons_of_pos (decide_eq_true hc)

theorem withoutSeparators_append (v w : List Char) :
    withoutSeparators (v ++ w) = withoutSeparators v ++ withoutSeparators w :=
  List.filter_append ..

theorem mem_moreDigit : w ∈ b.moreDigit.matches' ↔
    ∃ c, b.accepts c ∧ (w = [c] ∨ w = ['_', c]) := by
  rw [NumberBase.moreDigit, matches'_mul, Language.mem_mul]
  constructor
  · rintro ⟨u, hu, v, hv, rfl⟩
    obtain ⟨c, hc, rfl⟩ := mem_oneOf.1 hv
    refine ⟨c, NumberBase.accepts_iff.2 hc, ?_⟩
    rcases mem_optionally.1 hu with rfl | hu
    · exact .inl rfl
    · rw [mem_char.1 hu]
      exact .inr rfl
  · rintro ⟨c, hc, rfl | rfl⟩
    · exact ⟨[], mem_optionally.2 (.inl rfl), [c],
        mem_oneOf.2 ⟨c, NumberBase.accepts_iff.1 hc, rfl⟩, rfl⟩
    · exact ⟨['_'], mem_optionally.2 (.inr (mem_char.2 rfl)), [c],
        mem_oneOf.2 ⟨c, NumberBase.accepts_iff.1 hc, rfl⟩, rfl⟩

theorem mem_moreDigits_append {v : List Char} (hv : v ∈ b.moreDigit.matches')
    (hw : w ∈ (star b.moreDigit).matches') : v ++ w ∈ (star b.moreDigit).matches' := by
  obtain ⟨pieces, rfl, hpieces⟩ := Language.mem_kstar.1 hw
  exact Language.mem_kstar.2 ⟨v :: pieces, rfl, List.forall_mem_cons.2 ⟨hv, hpieces⟩⟩

/-- Digits are put together from pieces, each a digit with at most one separator. -/
theorem Digits.mem_moreDigits {leading : Bool} (h : Digits b leading w ds) :
    w ∈ (star b.moreDigit).matches' ∧ ds = withoutSeparators w := by
  induction h with
  | nil => exact ⟨Language.nil_mem_kstar _, rfl⟩
  | @digit _ c w ds hc _ ih =>
    refine ⟨mem_moreDigits_append (mem_moreDigit.2 ⟨c, hc, .inl rfl⟩) ih.1, ?_⟩
    rw [withoutSeparators_cons (NumberBase.ne_of_accepts hc rfl), ih.2]
  | @separator c w ds hc _ ih =>
    refine ⟨mem_moreDigits_append (mem_moreDigit.2 ⟨c, hc, .inr rfl⟩) ih.1, ?_⟩
    change _ = withoutSeparators (c :: w)
    rw [withoutSeparators_cons (NumberBase.ne_of_accepts hc rfl), ih.2]

theorem digits_of_mem_moreDigits (h : w ∈ (star b.moreDigit).matches') :
    Digits b true w (withoutSeparators w) := by
  obtain ⟨pieces, rfl, hpieces⟩ := Language.mem_kstar.1 h
  clear h
  induction pieces with
  | nil => exact .nil
  | cons piece pieces ih =>
    obtain ⟨hpiece, hrest⟩ := List.forall_mem_cons.1 hpieces
    obtain ⟨c, hc, hpiece⟩ := mem_moreDigit.1 hpiece
    have hcons := withoutSeparators_cons (NumberBase.ne_of_accepts hc rfl) pieces.flatten
    rcases hpiece with rfl | rfl
    · change Digits b true (c :: pieces.flatten) (withoutSeparators (c :: pieces.flatten))
      rw [hcons]
      exact .digit hc (ih hrest)
    · change Digits b true ('_' :: c :: pieces.flatten) (withoutSeparators (c :: pieces.flatten))
      rw [hcons]
      exact .separator hc (ih hrest)

/-- Digits with separators are the words of an expression. -/
theorem digits_iff : Digits b true w ds ↔
    w ∈ (star b.moreDigit).matches' ∧ ds = withoutSeparators w := by
  refine ⟨Digits.mem_moreDigits, ?_⟩
  rintro ⟨hw, rfl⟩
  exact digits_of_mem_moreDigits hw

/-- A first digit and more of them are the words of an expression. -/
theorem digitRun_iff : (∃ c v es, b.accepts c ∧ Digits b true v es ∧ w = c :: v ∧ ds = c :: es) ↔
    w ∈ b.digitRun.matches' ∧ ds = withoutSeparators w := by
  rw [NumberBase.mem_digitRun]
  constructor
  · rintro ⟨c, v, es, hc, hv, rfl, rfl⟩
    obtain ⟨hmem, rfl⟩ := digits_iff.1 hv
    exact ⟨⟨c, v, hc, hmem, rfl⟩,
      (withoutSeparators_cons (NumberBase.ne_of_accepts hc rfl) v).symm⟩
  · rintro ⟨⟨c, v, hc, hv, rfl⟩, rfl⟩
    exact ⟨c, v, _, hc, digits_iff.2 ⟨hv, rfl⟩, rfl,
      withoutSeparators_cons (NumberBase.ne_of_accepts hc rfl) v⟩

/-! ### The parts of a decimal number -/

theorem fraction_iff {fs : List Char} : Fraction w fs ↔
    w ∈ NumberBase.fraction.matches' ∧ fs = withoutSeparators w := by
  rw [NumberBase.fraction, mem_optionally, matches'_mul, Language.mem_mul]
  constructor
  · rintro (_ | @⟨c, v, ds, hc, hv⟩)
    · exact ⟨.inl rfl, rfl⟩
    · rw [← NumberBase.accepts_decimal] at hc
      obtain ⟨hrun, hds⟩ := digitRun_iff.1 ⟨c, v, ds, hc, hv, rfl, rfl⟩
      refine ⟨.inr ⟨['.'], mem_char.2 rfl, c :: v, hrun, rfl⟩, ?_⟩
      rw [withoutSeparators_cons (by decide), hds]
  · rintro ⟨rfl | ⟨u, hu, v, hv, rfl⟩, rfl⟩
    · exact .none
    · obtain ⟨c, v, es, hc, hds, rfl, hes⟩ := digitRun_iff.2 ⟨hv, rfl⟩
      rw [NumberBase.accepts_decimal] at hc
      rw [mem_char.1 hu, List.singleton_append, withoutSeparators_cons (by decide), hes]
      exact .some hc hds

/-- One of two characters, or nothing. -/
theorem mem_optionally_oneOf {x y : Char} : w ∈ (optionally (oneOf [x, y])).matches' ↔
    w = [] ∨ w = [x] ∨ w = [y] := by
  simp [mem_optionally, mem_oneOf]

theorem withoutSeparators_choice {x y : Char} (hx : x ≠ '_') (hy : y ≠ '_')
    (h : w = [] ∨ w = [x] ∨ w = [y]) : withoutSeparators w = w := by
  rcases h with rfl | rfl | rfl
  · rfl
  · exact withoutSeparators_cons hx []
  · exact withoutSeparators_cons hy []

theorem exponent_iff {es : List Char} : Exponent w es ↔
    w ∈ NumberBase.exponent.matches' ∧ es = withoutSeparators w := by
  rw [NumberBase.exponent, mem_optionally, matches'_mul, Language.mem_mul]
  constructor
  · rintro (_ | @⟨e, sign, c, v, ds, he, hsign, hc, hv⟩)
    · exact ⟨.inl rfl, rfl⟩
    · rw [← NumberBase.accepts_decimal] at hc
      obtain ⟨hrun, hds⟩ := digitRun_iff.1 ⟨c, v, ds, hc, hv, rfl, rfl⟩
      refine ⟨.inr ⟨[e], mem_oneOf.2 ⟨e, by simpa using he, rfl⟩, sign ++ c :: v, ?_, rfl⟩, ?_⟩
      · rw [matches'_mul]
        exact Language.mem_mul.2 ⟨sign, mem_optionally_oneOf.2 hsign, c :: v, hrun, rfl⟩
      · rw [withoutSeparators_cons (by rcases he with rfl | rfl <;> decide),
          withoutSeparators_append, withoutSeparators_choice (by decide) (by decide) hsign, hds]
  · rintro ⟨rfl | ⟨u, hu, k, hk, rfl⟩, rfl⟩
    · exact .none
    · obtain ⟨e, he, rfl⟩ := mem_oneOf.1 hu
      have he : e = 'e' ∨ e = 'E' := by simpa using he
      rw [matches'_mul] at hk
      obtain ⟨sign, hsign, v, hv, rfl⟩ := Language.mem_mul.1 hk
      have hsign := mem_optionally_oneOf.1 hsign
      obtain ⟨c, v, es, hc, hds, rfl, hes⟩ := digitRun_iff.2 ⟨hv, rfl⟩
      rw [NumberBase.accepts_decimal] at hc
      rw [List.singleton_append, withoutSeparators_cons (by rcases he with rfl | rfl <;> decide),
        withoutSeparators_append, withoutSeparators_choice (by decide) (by decide) hsign, hes]
      exact .some he hsign hc hds

/-! ### Numbers -/

/-- Behind the mark of a base a separator may stand in front of the first digit. -/
theorem leadingDigits_iff : Digits b true w ds ∧ ds ≠ [] ↔
    w ∈ (optionally (char '_') * b.digitRun).matches' ∧ ds = withoutSeparators w := by
  rw [matches'_mul, Language.mem_mul]
  constructor
  · rintro ⟨_ | @⟨_, c, v, es, hc, hv⟩ | @⟨c, v, es, hc, hv⟩, hne⟩
    · exact absurd rfl hne
    · obtain ⟨hrun, hds⟩ := digitRun_iff.1 ⟨c, v, es, hc, hv, rfl, rfl⟩
      exact ⟨⟨[], mem_optionally.2 (.inl rfl), c :: v, hrun, rfl⟩, hds⟩
    · obtain ⟨hrun, hds⟩ := digitRun_iff.1 ⟨c, v, es, hc, hv, rfl, rfl⟩
      exact ⟨⟨['_'], mem_optionally.2 (.inr (mem_char.2 rfl)), c :: v, hrun, rfl⟩, hds⟩
  · rintro ⟨⟨u, hu, v, hv, rfl⟩, rfl⟩
    obtain ⟨c, v, es, hc, hds, rfl, hes⟩ := digitRun_iff.2 ⟨hv, rfl⟩
    rcases mem_optionally.1 hu with rfl | hu
    · rw [List.nil_append, hes]
      exact ⟨.digit hc hds, List.cons_ne_nil _ _⟩
    · rw [mem_char.1 hu]
      change Digits b true ('_' :: c :: v) (withoutSeparators (c :: v)) ∧
        withoutSeparators (c :: v) ≠ []
      rw [hes]
      exact ⟨.separator hc hds, List.cons_ne_nil _ _⟩

theorem NumberBase.numeral_of_ofLetter? {m : Char} (hm : ofLetter? m = some b) :
    b.numeral = exactly b.mark.toList * (optionally (char '_') * digitRun b) := by
  cases b with
  | decimal => cases mark_of_ofLetter? hm
  | _ => rfl

theorem numeral_marked_iff {m : Char} {text : String} (hm : NumberBase.ofLetter? m = some b) :
    Numeral w ⟨text, b⟩ ↔ w ∈ b.numeral.matches' ∧
      text = String.ofList (withoutSeparators (w.drop b.mark.length)) := by
  have hmark := NumberBase.mark_of_ofLetter? hm
  rw [NumberBase.numeral_of_ofLetter? hm, matches'_mul, Language.mem_mul, ← String.length_toList,
    hmark]
  constructor
  · rintro (@⟨m', _, v, ds, hm', hds, hne⟩ | _)
    · rw [NumberBase.mark_of_ofLetter? hm'] at hmark
      cases hmark
      obtain ⟨hv, rfl⟩ := leadingDigits_iff.1 ⟨hds, hne⟩
      exact ⟨⟨['0', m], mem_exactly.2 rfl, v, hv, rfl⟩, rfl⟩
    · cases hmark
  · rintro ⟨⟨u, hu, v, hv, rfl⟩, rfl⟩
    rw [mem_exactly.1 hu]
    obtain ⟨hds, hne⟩ := leadingDigits_iff.2 ⟨hv, rfl⟩
    exact .marked hm hds hne

theorem numeral_decimal_iff {text : String} : Numeral w ⟨text, .decimal⟩ ↔
    w ∈ NumberBase.decimal.numeral.matches' ∧ text = String.ofList (withoutSeparators w) := by
  rw [NumberBase.numeral, matches'_mul, matches'_mul, matches'_mul, Language.mem_mul]
  constructor
  · rintro (hm | @⟨c, v, ds, f, fs, e, es, j, hc, hv, hf, he, hj⟩)
    · cases NumberBase.mark_of_ofLetter? hm
    · rw [← NumberBase.accepts_decimal] at hc
      obtain ⟨hrun, hds⟩ := digitRun_iff.1 ⟨c, v, ds, hc, hv, rfl, rfl⟩
      obtain ⟨hfraction, rfl⟩ := fraction_iff.1 hf
      obtain ⟨hexponent, rfl⟩ := exponent_iff.1 he
      refine ⟨⟨c :: v, hrun, f ++ (e ++ j), Language.mem_mul.2 ⟨f, hfraction, e ++ j,
        Language.mem_mul.2 ⟨e, hexponent, j, mem_optionally_oneOf.2 hj, rfl⟩, rfl⟩, rfl⟩, ?_⟩
      have hsuffix := withoutSeparators_choice (by decide) (by decide) hj
      rw [← List.cons_append, withoutSeparators_append, withoutSeparators_append,
        withoutSeparators_append, ← hds, hsuffix, List.append_assoc, List.append_assoc]
  · rintro ⟨⟨u, hu, k, hk, rfl⟩, rfl⟩
    obtain ⟨f, hf, l, hl, rfl⟩ := Language.mem_mul.1 hk
    obtain ⟨e, he, j, hj, rfl⟩ := Language.mem_mul.1 hl
    obtain ⟨c, v, ds, hc, hv, rfl, hds⟩ := digitRun_iff.2 ⟨hu, rfl⟩
    have hj := mem_optionally_oneOf.1 hj
    have hsuffix := withoutSeparators_choice (by decide) (by decide) hj
    have hnumeral := Numeral.decimal (by rwa [← NumberBase.accepts_decimal]) hv
      (fraction_iff.2 ⟨hf, rfl⟩) (exponent_iff.2 ⟨he, rfl⟩) hj
    rw [withoutSeparators_append, withoutSeparators_append, withoutSeparators_append, hds, hsuffix]
    rwa [List.append_assoc, List.append_assoc] at hnumeral

/-- **How numbers are written.** -/
theorem numeral_iff {n : NumberLiteral} : Numeral w n ↔ w ∈ n.base.numeral.matches' ∧
    n.text = String.ofList (withoutSeparators (w.drop n.base.mark.length)) := by
  obtain ⟨text, base⟩ := n
  cases base with
  | binary => exact numeral_marked_iff (m := 'b') rfl
  | octal => exact numeral_marked_iff (m := 'o') rfl
  | hexadecimal => exact numeral_marked_iff (m := 'x') rfl
  | decimal => exact numeral_decimal_iff

/-! ### Texts that are one number -/

/-- A gap begins with a blank, a line break or a comment. -/
theorem Trivia.eq_nil {closed : Bool} {g : List Char} (h : Trivia closed g)
    (hg : ∀ c ∈ g, c ∉ stops) : g = [] := by
  cases g with
  | nil => rfl
  | cons c g => exact absurd (h.head c rfl) (hg c List.mem_cons_self)

theorem Lexemes.ne_nil {offset : Nat} {ts : List PlacedToken} (h : Lexemes offset w ts) :
    ts ≠ [] := by
  cases h <;> simp

/-- Nothing is written behind the last lexeme. -/
theorem Lexemes.eq_nil_of_singleton {offset : Nat} {eof : PlacedToken}
    (h : Lexemes offset w [eof]) : w = [] := by
  generalize hts : [eof] = ts at h
  cases h with
  | finish => rfl
  | lexeme _ _ _ _ hrest =>
    obtain ⟨-, hnil⟩ := List.cons.inj hts
    exact absurd (List.append_eq_nil_iff.1 hnil.symm).2 hrest.ne_nil

/-- Without gaps, a text that is read as one token is a lexeme of it. -/
theorem Lexemes.lexeme_of_pair {offset : Nat} {t eof : PlacedToken}
    (h : Lexemes offset w [t, eof]) (hw : ∀ c ∈ w, c ∉ stops) : Lexeme w t.token := by
  generalize hts : [t, eof] = ts at h
  cases h with
  | finish => cases hts
  | lexeme _ hlexeme hg hnl hrest =>
    obtain ⟨-, hbehind⟩ := List.forall_mem_append.1 hw
    obtain rfl := hg.eq_nil (List.forall_mem_append.1 hbehind).1
    cases hnl
    cases hts
    rwa [hrest.eq_nil_of_singleton, List.append_nil, List.append_nil]

/-- **Numbers are accepted exactly.** A text without blanks, line breaks and comments is read as one
number if and only if it is written like a number of its base, and the number keeps what is behind the
mark of the base, without separators. -/
theorem tokenize_number_iff (text : String) (htext : ∀ c ∈ text.toList, c ∉ stops)
    (n : NumberLiteral) :
    (∃ p q, tokenize text = .ok [⟨.number n, p⟩, ⟨.endOfInput, q⟩]) ↔
      text.toList ∈ n.base.numeral.matches' ∧
        n.text = String.ofList (withoutSeparators (text.toList.drop n.base.mark.length)) := by
  rw [← numeral_iff]
  constructor
  · rintro ⟨p, q, h⟩
    obtain ⟨g, k, nl, us, hk, hg, hnl, hus, hts⟩ := laidOut_of_tokenize h
    rw [hk] at htext ⊢
    obtain rfl := hg.eq_nil (List.forall_mem_append.1 htext).1
    obtain rfl : nl = [] := hnl
    obtain rfl := hts
    have hlexeme := hus.lexeme_of_pair htext
    generalize hn : Token.number n = t at hlexeme
    cases hlexeme <;> cases hn
    next hnumeral => exact hnumeral
  · intro h
    have hlexeme : Lexeme text.toList (.number n) := .number h
    have hbehind : ∀ c ∈ ([] : List Char).head?, c ∈ stops := by simp
    have hreads := ReadsAs.lexeme hlexeme (hlexeme.gapFree Token.noConfusion) hbehind .nil
    rw [List.append_nil] at hreads
    obtain ⟨ts, hts, htokens⟩ := hreads.tokenize
    obtain ⟨⟨_, p⟩, us, rfl, rfl, hus⟩ := List.map_eq_cons_iff.1 htokens
    obtain ⟨⟨_, q⟩, rest, rfl, rfl, hrest⟩ := List.map_eq_cons_iff.1 hus
    obtain rfl := List.map_eq_nil_iff.1 hrest
    exact ⟨p, q, hts⟩

/-- A separator may stand behind the mark of a base but not behind another one. -/
theorem tokenize_number_iff_separators :
    (∃ p q, tokenize "0x_fE_1" = .ok [⟨.number ⟨"fE1", .hexadecimal⟩, p⟩, ⟨.endOfInput, q⟩]) ∧
      (∃ p q, tokenize "1_0.5E-7j" = .ok [⟨.number ⟨"10.5E-7j", .decimal⟩, p⟩, ⟨.endOfInput, q⟩]) ∧
      ¬ ∃ p q, tokenize "1__0" = .ok [⟨.number ⟨"10", .decimal⟩, p⟩, ⟨.endOfInput, q⟩] := by
  have hstops (text : String) (h : text.toList.all (· ∉ stops)) : ∀ c ∈ text.toList, c ∉ stops :=
    List.all_iff_forall_prop.1 h
  refine ⟨(tokenize_number_iff _ (hstops _ (by decide +kernel)) _).2 (by decide +kernel),
    (tokenize_number_iff _ (hstops _ (by decide +kernel)) _).2 (by decide +kernel), fun h => ?_⟩
  have hwritten := ((tokenize_number_iff _ (hstops _ (by decide +kernel)) _).1 h).1
  revert hwritten
  decide +kernel

end DrakeSyntax
