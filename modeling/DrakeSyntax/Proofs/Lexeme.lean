import DrakeSyntax.Proofs.Cells.Token
import DrakeSyntax.Proofs.Place
import Mathlib.Data.Bool.AllAny

/-!
# Lexemes

How tokens are written, as a grammar on characters that says nothing of scanning: `Lexeme w t`
holds if `w` is a spelling of the token `t`. Words and punctuators have one spelling. The digits
of a number may be grouped by separators (`Digits`, `Numeral`), and the characters of a string
may be escaped (`Units`).
-/

namespace DrakeSyntax

/-- `w` writes the digits `ds` of the base `b`. A single separator may stand between two digits,
and in front of the first one if `leading`. -/
inductive Digits (b : NumberBase) : (leading : Bool) → (w ds : List Char) → Prop
  | nil {leading} : Digits b leading [] []
  | digit {leading c w ds} : b.accepts c → Digits b true w ds →
      Digits b leading (c :: w) (c :: ds)
  | separator {c w ds} : b.accepts c → Digits b true w ds →
      Digits b true ('_' :: c :: w) (c :: ds)

/-- `w` writes the fraction `fs` of a decimal number. -/
inductive Fraction : (w fs : List Char) → Prop
  | none : Fraction [] []
  | some {c w ds} : c.isDigit → Digits .decimal true w ds → Fraction ('.' :: c :: w) ('.' :: c :: ds)

/-- `w` writes the exponent `es` of a decimal number. -/
inductive Exponent : (w es : List Char) → Prop
  | none : Exponent [] []
  | some {e sign c w ds} : e = 'e' ∨ e = 'E' → sign = [] ∨ sign = ['+'] ∨ sign = ['-'] →
      c.isDigit → Digits .decimal true w ds →
      Exponent (e :: (sign ++ c :: w)) (e :: (sign ++ c :: ds))

/-- `w` writes a number: the mark of a base and digits, or a decimal number. -/
inductive Numeral : (w : List Char) → NumberLiteral → Prop
  | marked {m b w ds} : NumberBase.ofLetter? m = some b → Digits b true w ds → ds ≠ [] →
      Numeral ('0' :: m :: w) ⟨String.ofList ds, b⟩
  | decimal {c w ds f fs e es j} : c.isDigit → Digits .decimal true w ds → Fraction f fs →
      Exponent e es → j = [] ∨ j = ['j'] ∨ j = ['J'] →
      Numeral (c :: (w ++ (f ++ (e ++ j)))) ⟨String.ofList (c :: ds ++ fs ++ es ++ j), .decimal⟩

/-- `w` writes the characters `v` between two quotes `q`. -/
inductive Units (q : Char) : (v w : List Char) → Prop
  | nil : Units q [] []
  | plain {c v w} : breaksLine c = false → c ≠ q → c ≠ '\\' → Units q v w →
      Units q (c :: v) (c :: w)
  | escape {c v w} : breaksLine c = false → Units q v w →
      Units q (escaped c :: v) ('\\' :: c :: w)

/-- `c` and the characters `w` behind it are letters, digits and underscores, and `c` is no digit. -/
def NameLike (c : Char) (w : List Char) : Prop :=
  (c.isAlpha ∨ c = '_') ∧ ∀ d ∈ w, d.isAlphanum ∨ d = '_'

/-- **How a token is written.** -/
inductive Lexeme : (w : List Char) → Token → Prop
  | identifier {c w} : NameLike c w → (∀ k : Keyword, k.spelling ≠ String.ofList (c :: w)) →
      Lexeme (c :: w) (.identifier (String.ofList (c :: w)))
  | keyword (k) : Lexeme k.spelling.toList (.keyword k)
  | punctuator (p) : Lexeme p.spelling.toList (.punctuator p)
  | number {w n} : Numeral w n → Lexeme w (.number n)
  | string {q v w} : q = '"' ∨ q = '\'' → Units q v w →
      Lexeme (q :: (w ++ [q])) (.string (String.ofList v))

/-! ### Digits -/

theorem isDigit_sub_lt {c : Char} (h : c.isDigit) : c.toNat - '0'.toNat < 10 := by
  simp only [Char.isDigit, Bool.and_eq_true, decide_eq_true_eq, UInt32.le_iff_toNat_le] at h
  have h9 : '9'.val.toNat = 57 := rfl
  have h0 : '0'.toNat = 48 := rfl
  have hc : c.toNat = c.val.toNat := rfl
  omega

/-- A letter or a digit is one of the first 128 characters. -/
theorem toNat_lt_of_isAlphanum {c : Char} (h : c.isAlphanum) : c.toNat < 128 := by
  have hranges : (decide ('A' ≤ c ∧ c ≤ 'Z') || decide ('a' ≤ c) && decide (c ≤ 'z') ||
      decide ('0' ≤ c) && decide (c ≤ '9')) = true := h
  simp only [Bool.or_eq_true, Bool.and_eq_true, decide_eq_true_eq, Char.le_def,
    UInt32.le_iff_toNat_le] at hranges
  have hz : 'z'.val.toNat = 122 := rfl
  have hZ : 'Z'.val.toNat = 90 := rfl
  have h9 : '9'.val.toNat = 57 := rfl
  have hc : c.toNat = c.val.toNat := rfl
  omega

theorem NumberBase.accepts_decimal (c : Char) : decimal.accepts c = c.isDigit := by
  -- a letter is worth ten or more
  have hletter (n : Nat) : ¬ n + 10 < decimal.radix := by
    change ¬ n + 10 < 10
    omega
  unfold accepts digit? digitValue?
  by_cases hd : c.isDigit
  · have : c.toNat - '0'.toNat < decimal.radix := isDigit_sub_lt hd
    rw [if_pos hd, Option.filter_some, if_pos (decide_eq_true this), hd]
    rfl
  · by_cases hl : c.isLower
    · rw [if_neg hd, if_pos hl, Option.filter_some, decide_eq_false (hletter _)]
      simp [hd]
    · by_cases hu : c.isUpper
      · rw [if_neg hd, if_neg hl, if_pos hu, Option.filter_some, decide_eq_false (hletter _)]
        simp [hd]
      · simp [hd, hl, hu]

/-- A digit of any base is a letter or a digit. -/
theorem NumberBase.isAlphanum_of_accepts {b : NumberBase} {c : Char} (h : b.accepts c) :
    c.isAlphanum := by
  unfold accepts digit? digitValue? at h
  change (c.isUpper || c.isLower || c.isDigit) = true
  by_cases hd : c.isDigit
  · simp [hd]
  · by_cases hl : c.isLower
    · simp [hl]
    · by_cases hu : c.isUpper
      · simp [hu]
      · simp [hd, hl, hu] at h

/-- The digits of the base. -/
def NumberBase.digits : NumberBase → List Char
  | binary => "01".toList
  | octal => "01234567".toList
  | hexadecimal => "0123456789abcdefABCDEF".toList
  | decimal => "0123456789".toList

theorem NumberBase.toNat_lt_of_accepts {b : NumberBase} {c : Char} (h : b.accepts c) :
    c.toNat < 128 :=
  toNat_lt_of_isAlphanum (isAlphanum_of_accepts h)

theorem NumberBase.accepts_iff {b : NumberBase} {c : Char} : b.accepts c ↔ c ∈ b.digits := by
  -- the first 128 characters are few enough to try them all
  have hfirst : ∀ n < 128, b.accepts (Char.ofNat n) → Char.ofNat n ∈ b.digits := by
    cases b <;> decide +kernel
  have hdigits : ∀ d ∈ b.digits, b.accepts d := by
    refine List.all_iff_forall_prop.1 ?_
    cases b <;> decide +kernel
  refine ⟨fun h => ?_, hdigits c⟩
  have hmem := hfirst c.toNat (toNat_lt_of_accepts h)
  rw [Char.ofNat_toNat] at hmem
  exact hmem h

/-- Written without separators, the digits of a number write themselves. -/
theorem Digits.bare {b : NumberBase} {leading leading' : Bool} {w ds : List Char}
    (h : Digits b leading w ds) : Digits b leading' ds ds := by
  induction h generalizing leading' with
  | nil => exact .nil
  | digit hc _ ih | separator hc _ ih => exact .digit hc ih

/-- The cells lie in one line. -/
def Unbroken (cells : List Cell) : Prop := ∀ c ∈ cells, c.isBreak = false

theorem unbroken_nil : Unbroken [] := by
  intro c hc
  cases hc

theorem Unbroken.cons {c : Cell} {cs : List Cell} (hc : c.isBreak = false) (hcs : Unbroken cs) :
    Unbroken (c :: cs) := by
  intro d hd
  rcases List.mem_cons.1 hd with rfl | hd
  · exact hc
  · exact hcs d hd

theorem Unbroken.append {cs ds : List Cell} (hcs : Unbroken cs) (hds : Unbroken ds) :
    Unbroken (cs ++ ds) := by
  intro c hc
  rcases List.mem_append.1 hc with hc | hc
  · exact hcs c hc
  · exact hds c hc

/-- A cell whose character satisfies what a line break does not satisfy breaks no line. -/
theorem Cell.isBreak_of_char {c : Cell} {q : Char → Bool} (hq : q '\n' = false)
    (hc : q c.char) : c.isBreak = false := by
  unfold isBreak
  rw [beq_eq_false_iff_ne]
  intro hbreak
  rw [hbreak, hq] at hc
  cases hc

theorem Cell.isBreak_of_breaksLine {c : Cell} (h : breaksLine c.char = false) :
    c.isBreak = false :=
  (Bool.or_eq_false_iff.1 h).1

/-- A `\r` breaks the line too, but it is no cell of a source. -/
theorem Cell.breaksLine_of_isBreak {c : Cell} (h : c.isBreak = false) (hr : c.char ≠ '\r') :
    breaksLine c.char = false :=
  Bool.or_eq_false_iff.2 ⟨h, beq_false_of_ne hr⟩

theorem Cell.isBreak_of_accepts {b : NumberBase} {c : Cell} (h : b.accepts c.char) :
    c.isBreak = false :=
  isBreak_of_char (by cases b <;> rfl) h

/-- A run of digits takes cells that write the digits it finds. -/
theorem DigitRun.read_eq_append (b : NumberBase) (leading : Bool) (cells : List Cell) :
    ∃ taken, cells = taken ++ (read b leading cells).rest ∧ Unbroken taken ∧
      Digits b leading (taken.map Cell.char) (read b leading cells).digits := by
  fun_induction read b leading cells with
  | case1 => exact ⟨[], rfl, unbroken_nil, .nil⟩
  | case2 leading c cs hc ih =>
    obtain ⟨taken, hcs, hline, hdigits⟩ := ih
    exact ⟨c :: taken, by rw [cons, List.cons_append, ← hcs],
      hline.cons (Cell.isBreak_of_accepts hc), .digit hc hdigits⟩
  | case3 leading c cs hc hsep hnext ih =>
    obtain ⟨taken, hcs, hline, hdigits⟩ := ih
    obtain ⟨hleading, hstart⟩ := Bool.and_eq_true_iff.1 hnext
    refine ⟨c :: taken, by rw [List.cons_append, ← hcs], hline.cons ?_, ?_⟩
    · simp [Cell.isBreak, hsep]
    · -- the cell behind a separator is a digit
      cases cs with
      | nil => cases hstart
      | cons d cs =>
        have hd : b.accepts d.char := hstart
        rw [read, if_pos hd] at hdigits
        rw [List.map_cons, hsep, hleading, read, if_pos hd]
        cases hw : taken.map Cell.char with
        | nil => rw [hw] at hdigits; cases hdigits
        | cons e w =>
          rw [hw] at hdigits
          cases hdigits with
          | digit he hw => exact .separator he hw
  | case4 | case5 => exact ⟨[], rfl, unbroken_nil, .nil⟩

/-- The cells that write digits are taken as a run if nothing that could belong to it stands
behind them. -/
theorem DigitRun.read_of_digits {b : NumberBase} {leading : Bool} {w ds : List Char}
    (h : Digits b leading w ds) {taken rest : List Cell} (htaken : taken.map Cell.char = w)
    (hrest : ∀ c ∈ rest.head?, ¬ b.accepts c.char ∧ c.char ≠ '_') :
    read b leading (taken ++ rest) = ⟨ds, false, rest⟩ := by
  induction h generalizing taken with
  | nil =>
    rw [List.map_eq_nil_iff] at htaken
    subst htaken
    cases rest with
    | nil => rfl
    | cons c rest =>
      obtain ⟨hc, hsep⟩ := hrest c rfl
      rw [List.nil_append, read, if_neg hc, if_neg hsep]
  | digit hc _ ih =>
    obtain ⟨c, taken, rfl, rfl, hw⟩ := List.map_eq_cons_iff.1 htaken
    rw [List.cons_append, read, if_pos hc, ih hw]
    rfl
  | separator hc _ ih =>
    obtain ⟨s, tail, rfl, hs, htail⟩ := List.map_eq_cons_iff.1 htaken
    obtain ⟨c, taken, rfl, rfl, hw⟩ := List.map_eq_cons_iff.1 htail
    have hsep : ¬ b.accepts s.char := by
      rw [hs]
      intro h
      have := NumberBase.isAlphanum_of_accepts h
      revert this
      decide
    have hstart : startsWithDigit b (c :: taken ++ rest) := hc
    rw [List.cons_append, read, if_neg hsep, if_pos hs, hstart, Bool.true_and, if_pos rfl,
      List.cons_append, read, if_pos hc, ih hw]
    rfl

/-! ### Words and punctuators -/

namespace Keyword

/-- All keywords, in alphabetical order. -/
def all : List Keyword :=
  [and, as_, break_, case, catch_, const, continue_, do_, else_, enum, exception, false_,
    finally_, flags, for_, from_, if_, in_, is, iter, module_, mutable, none_, nonlocal, not,
    object, or, pass, return_, then_, throw, true_, try_, while_, xor, yield]

theorem mem_all (k : Keyword) : k ∈ all :=
  List.mem_of_elem_eq_true (by cases k <;> rfl)

/-- What can be decided of a keyword can be decided of all of them. -/
instance decidableForall {P : Keyword → Prop} [DecidablePred P] : Decidable (∀ k, P k) :=
  decidable_of_iff (all.all fun k => P k)
    (List.all_iff_forall_prop.trans ⟨fun h k => h k k.mem_all, fun h k _ => h k⟩)

theorem spelling_of_ofWord? {word : String} {k : Keyword} (h : ofWord? word = some k) :
    k.spelling = word := by
  unfold ofWord? at h
  split at h <;> cases h <;> rfl

theorem ofWord?_spelling (k : Keyword) : ofWord? k.spelling = some k := by
  cases k <;> rfl

/-- **A word is read as the keyword that is spelled like it**, if there is one. -/
theorem ofWord?_eq_some_iff {word : String} {k : Keyword} :
    ofWord? word = some k ↔ k.spelling = word :=
  ⟨spelling_of_ofWord?, fun h => h ▸ k.ofWord?_spelling⟩

theorem ofWord?_eq_none_iff {word : String} :
    ofWord? word = none ↔ ∀ k : Keyword, k.spelling ≠ word := by
  simp only [Option.eq_none_iff_forall_ne_some, ne_eq, ofWord?_eq_some_iff]

end Keyword

theorem Punctuator.mem_byLength (p : Punctuator) : p ∈ byLength :=
  List.mem_of_elem_eq_true (by cases p <;> rfl)

/-- What can be decided of a punctuator can be decided of all of them. -/
instance Punctuator.decidableForall {P : Punctuator → Prop} [DecidablePred P] :
    Decidable (∀ p, P p) :=
  decidable_of_iff (byLength.all fun p => P p)
    (List.all_iff_forall_prop.trans ⟨fun h p => h p p.mem_byLength, fun h p _ => h p⟩)

/-- **The words are the texts that have the form of a name.** -/
theorem nameLike_iff {c : Char} {w : List Char} :
    NameLike c w ↔ isWordStart c ∧ ∀ d ∈ w, isWordChar d := by
  simp only [NameLike, isWordStart, isWordChar, Bool.or_eq_true, beq_iff_eq]

theorem isWordChar_of_isWordStart {c : Char} (h : isWordStart c) : isWordChar c := by
  unfold isWordStart at h
  unfold isWordChar Char.isAlphanum
  rcases Bool.or_eq_true_iff.1 h with h | h
  · rw [h]
    rfl
  · rw [h, Bool.or_true]

/-- A word is a keyword or a name. -/
theorem lexeme_ofWord {c : Char} {w : List Char} (hc : isWordStart c) (hw : ∀ d ∈ w, isWordChar d) :
    Lexeme (c :: w) (.ofWord (String.ofList (c :: w))) := by
  unfold Token.ofWord
  split
  · next k hk =>
    have hspelling := congrArg String.toList (Keyword.spelling_of_ofWord? hk)
    rw [String.toList_ofList] at hspelling
    rw [← hspelling]
    exact .keyword k
  · next hnone =>
    exact .identifier (nameLike_iff.2 ⟨hc, hw⟩) (Keyword.ofWord?_eq_none_iff.1 hnone)

theorem Punctuator.spelling_of_longest? {text : List Char} {p : Punctuator}
    (h : longest? text = some p) : p.spelling.toList <+: text := by
  unfold longest? at h
  have hp := List.find?_some h
  exact List.isPrefixOf_iff_prefix.1 hp

/-- The characters of a punctuator are neither blanks nor line breaks, and no word, number or
string begins with them. -/
theorem Punctuator.special (p : Punctuator) : ∀ c ∈ p.spelling.toList,
    isWordStart c = false ∧ c.isDigit = false ∧ c ≠ '"' ∧ c ≠ '\'' ∧ isBlank c = false ∧
      breaksLine c = false := by
  refine List.all_iff_forall_prop.1 ?_
  decide +revert +kernel

/-! ### Strings -/

namespace StringBody

/-- What was read of the cells: the writing of a value and the closing quote, or a part of the
cells. A `\r` is no cell of a source, but that is not known here. -/
def Of (quote : Char) (cells : List Cell) : StringBody → Prop
  | closed v rest => ∃ taken c, cells = taken ++ c :: rest ∧ Unbroken (taken ++ [c]) ∧
      c.char = quote ∧ ('\r' ∉ taken.map Cell.char → Units quote v (taken.map Cell.char))
  | unclosed rest => rest <:+ cells

theorem Of.cons (front : List Cell) {quote x : Char} {cells : List Cell} {body : StringBody}
    (h : Of quote cells body) (hfront : Unbroken front)
    (hunit : ∀ {v w}, '\r' ∉ front.map Cell.char → Units quote v w →
      Units quote (x :: v) (front.map Cell.char ++ w)) :
    Of quote (front ++ cells) (body.cons x) := by
  cases body with
  | closed v rest =>
    obtain ⟨taken, c, rfl, hline, hc, hunits⟩ := h
    refine ⟨front ++ taken, c, by simp, ?_, hc, ?_⟩
    · rw [List.append_assoc]
      exact hfront.append hline
    · rw [List.map_append]
      intro hr
      rw [List.mem_append, not_or] at hr
      exact hunit hr.1 (hunits hr.2)
  | unclosed rest => exact List.IsSuffix.trans h (List.suffix_append front cells)

theorem of_read (quote : Char) (cells : List Cell) : Of quote cells (read quote cells) := by
  fun_induction read quote cells with
  | case1 => exact List.suffix_refl _
  | case2 c cs hc => exact List.suffix_refl _
  | case3 c cs hc hquote =>
    rw [Bool.not_eq_true] at hc
    exact ⟨[], c, rfl, unbroken_nil.cons hc, hquote, fun _ => .nil⟩
  | case4 c hc hquote hslash => exact List.nil_suffix
  | case5 c hc hquote hslash d ds hd => exact List.suffix_cons _ _
  | case6 c hc hquote hslash d ds hd ih =>
    rw [Bool.not_eq_true] at hc hd
    refine Of.cons [c, d] ih ((unbroken_nil.cons hd).cons hc) fun hr h => ?_
    rw [List.map_cons, hslash]
    refine .escape (Cell.breaksLine_of_isBreak hd fun hd => ?_) h
    simp [hd] at hr
  | case7 c cs hc hquote hslash ih =>
    rw [Bool.not_eq_true] at hc
    refine Of.cons [c] ih (unbroken_nil.cons hc) fun hr h => ?_
    refine .plain (Cell.breaksLine_of_isBreak hc fun hc => ?_) hquote hslash h
    simp [hc] at hr

theorem read_plain {quote : Char} {c : Cell} (cs : List Cell) (hn : breaksLine c.char = false)
    (hne : c.char ≠ quote) (hslash : c.char ≠ '\\') :
    read quote (c :: cs) = (read quote cs).cons c.char := by
  rw [read.eq_def]
  simp only [Cell.isBreak_of_breaksLine hn, Bool.false_eq_true, if_false, if_neg hne,
    if_neg hslash]

theorem read_escape {quote : Char} {c d : Cell} (cs : List Cell) (hne : quote ≠ '\\')
    (hslash : c.char = '\\') (hn : breaksLine d.char = false) :
    read quote (c :: d :: cs) = (read quote cs).cons (escaped d.char) := by
  have hbreak : ¬ c.isBreak := by simp [Cell.isBreak, hslash]
  have hquote : ¬ c.char = quote := by
    rw [hslash]
    exact hne.symm
  rw [read.eq_def]
  simp only [if_neg hbreak, if_neg hquote, if_pos hslash, Cell.isBreak_of_breaksLine hn,
    Bool.false_eq_true, if_false]

/-- The cells that write a value are read up to the quote behind them. -/
theorem read_of_units {quote : Char} {v w : List Char} (h : Units quote v w)
    (hquote : quote ≠ '\n' ∧ quote ≠ '\\') {taken rest : List Cell} {c : Cell}
    (htaken : taken.map Cell.char = w) (hc : c.char = quote) :
    read quote (taken ++ c :: rest) = closed v rest := by
  induction h generalizing taken with
  | nil =>
    rw [List.map_eq_nil_iff] at htaken
    subst htaken
    have hbreak : ¬ c.isBreak := by simpa [Cell.isBreak, hc] using hquote.1
    rw [List.nil_append, read.eq_def]
    simp only [if_neg hbreak, if_pos hc]
  | plain hn hne hslash _ ih =>
    obtain ⟨d, tail, rfl, rfl, htail⟩ := List.map_eq_cons_iff.1 htaken
    rw [List.cons_append, read_plain _ hn hne hslash, ih htail]
    rfl
  | escape hn _ ih =>
    obtain ⟨s, behind, rfl, hs, hbehind⟩ := List.map_eq_cons_iff.1 htaken
    obtain ⟨d, tail, rfl, rfl, htail⟩ := List.map_eq_cons_iff.1 hbehind
    rw [List.cons_append, List.cons_append, read_escape _ hquote.2 hs hn, ih htail]
    rfl

end StringBody

end DrakeSyntax
