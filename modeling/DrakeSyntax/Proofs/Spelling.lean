import DrakeSyntax.Proofs.Layout.Tokenize

/-!
# Spelling tokens

A token is spelled in one way (`Token.spelling`): a word or a punctuator as it is, a number behind
the mark of its base, a string between double quotes with a backslash in front of what cannot
stand there. The spelling is a lexeme of the token (`Token.Spellable.lexeme`), and a lexeme lies
within a line (`Lexeme.unbroken`).
-/

namespace DrakeSyntax

/-- How a character of a string is spelled between double quotes. -/
def spelledChar : Char → List Char
  | '\\' => ['\\', '\\']
  | '"' => ['\\', '"']
  | '\n' => ['\\', 'n']
  | '\r' => ['\\', 'r']
  | c => [c]

namespace Token

/-- How a token is spelled. -/
def spelling : Token → List Char
  | identifier name => name.toList
  | keyword word => word.spelling.toList
  | string value => '"' :: (value.toList.flatMap spelledChar ++ ['"'])
  | number literal => literal.display.toList
  | punctuator mark => mark.spelling.toList
  | newline | endOfInput => []

/-- A name is a word that is no keyword, and a number is one that some text is read as. Neither a
line break nor the end is spelled. -/
def Spellable : Token → Prop
  | identifier name => (∃ c w, name = String.ofList (c :: w) ∧ NameLike c w) ∧
      ∀ k : Keyword, k.spelling ≠ name
  | number literal => ∃ text ts, tokenize text = .ok ts ∧ .number literal ∈ ts.map (·.token)
  | keyword _ | string _ | punctuator _ => True
  | newline | endOfInput => False

end Token

/-! ### Numbers -/

theorem Fraction.bare {w fs : List Char} (h : Fraction w fs) : Fraction fs fs := by
  cases h with
  | none => exact .none
  | some hc hds => exact .some hc hds.bare

theorem Exponent.bare {w es : List Char} (h : Exponent w es) : Exponent es es := by
  cases h with
  | none => exact .none
  | some he hsign hc hds => exact .some he hsign hc hds.bare

theorem NumberBase.mark_of_ofLetter? {m : Char} {b : NumberBase} (h : ofLetter? m = some b) :
    b.mark.toList = ['0', m] := by
  unfold ofLetter? at h
  split at h
  all_goals cases h
  all_goals rfl

/-- However a number is written, it is also written as it is shown. -/
theorem Numeral.display {w : List Char} {n : NumberLiteral} (h : Numeral w n) :
    Numeral n.display.toList n := by
  cases h with
  | @marked m b w ds hm hds hne =>
    rw [NumberLiteral.display, String.toList_append, String.toList_ofList,
      NumberBase.mark_of_ofLetter? hm]
    exact .marked hm hds.bare hne
  | @decimal c w ds f fs e es j hc hds hf he hj =>
    have htext : (NumberLiteral.mk (String.ofList (c :: ds ++ fs ++ es ++ j))
        .decimal).display.toList = c :: (ds ++ (fs ++ (es ++ j))) := by
      rw [NumberLiteral.display, String.toList_append, String.toList_ofList]
      simp [NumberBase.mark]
    rw [htext]
    exact .decimal hc hds.bare hf.bare he.bare hj

/-! ### Strings -/

theorem units_cons_spelledChar (c : Char) {v w : List Char} (h : Units '"' v w) :
    Units '"' (c :: v) (spelledChar c ++ w) := by
  unfold spelledChar
  split
  · exact Units.escape (c := '\\') rfl h
  · exact Units.escape (c := '"') rfl h
  · exact Units.escape (c := 'n') rfl h
  · exact Units.escape (c := 'r') rfl h
  · next hslash hquote hn hr =>
    refine .plain ?_ hquote hslash h
    rw [breaksLine, beq_false_of_ne hn, beq_false_of_ne hr]
    rfl

theorem units_spelled (v : List Char) : Units '"' v (v.flatMap spelledChar) := by
  induction v with
  | nil => exact .nil
  | cons c v ih => exact units_cons_spelledChar c ih

/-! ### All tokens -/

/-- The tokens that a text is read as, other than line breaks and the end, are written by lexemes. -/
theorem exists_lexeme_of_tokenize {text : String} {ts : List PlacedToken} {t : PlacedToken}
    (h : tokenize text = .ok ts) (ht : t ∈ ts) (hnewline : t.token ≠ .newline)
    (hend : t.token ≠ .endOfInput) : ∃ w, Lexeme w t.token := by
  obtain ⟨pre, us, rfl⟩ := List.append_of_mem ht
  obtain ⟨-, w, -, -, -, hw, -⟩ := (laidOut_of_tokenize h).exists_cut hnewline hend
  exact ⟨w, hw⟩

/-- A number that some text is read as is written in it. -/
theorem exists_numeral {text : String} {ts : List PlacedToken} {n : NumberLiteral}
    (h : tokenize text = .ok ts) (hn : .number n ∈ ts.map (·.token)) : ∃ w, Numeral w n := by
  obtain ⟨⟨token, position⟩, ht, rfl⟩ := List.mem_map.1 hn
  obtain ⟨w, hw⟩ := exists_lexeme_of_tokenize h ht Token.noConfusion Token.noConfusion
  cases hw with
  | number hw => exact ⟨w, hw⟩

/-- **A spelling is a lexeme of its token.** -/
theorem Token.Spellable.lexeme {t : Token} (h : t.Spellable) : Lexeme t.spelling t := by
  cases t with
  | identifier name =>
    obtain ⟨⟨c, w, rfl, hname⟩, hkeyword⟩ := h
    rw [spelling, String.toList_ofList]
    exact .identifier hname hkeyword
  | keyword word => exact .keyword word
  | string value =>
    have hlexeme := Lexeme.string (.inl rfl) (units_spelled value.toList)
    rw [String.ofList_toList] at hlexeme
    exact hlexeme
  | number literal =>
    obtain ⟨text, ts, hts, hn⟩ := h
    obtain ⟨w, hw⟩ := exists_numeral hts hn
    exact .number hw.display
  | punctuator mark => exact .punctuator mark
  | newline | endOfInput => exact False.elim h

/-! ### Lexemes lie within a line -/

/-- A character that satisfies what no line break satisfies breaks no line. -/
theorem breaksLine_eq_false {q : Char → Bool} (hn : q '\n' = false) (hr : q '\r' = false)
    {c : Char} (hc : q c) : breaksLine c = false := by
  have hne (d : Char) (hd : q d = false) : c ≠ d := by
    rintro rfl
    rw [hd] at hc
    cases hc
  rw [breaksLine, beq_false_of_ne (hne _ hn), beq_false_of_ne (hne _ hr)]
  rfl

theorem Digits.unbroken {b : NumberBase} {leading : Bool} {w ds : List Char}
    (h : Digits b leading w ds) : ∀ c ∈ w, breaksLine c = false := by
  have hdigit {c : Char} (hc : b.accepts c) : breaksLine c = false :=
    breaksLine_eq_false rfl rfl (NumberBase.isAlphanum_of_accepts hc)
  induction h with
  | nil => exact List.forall_mem_nil _
  | digit hc _ ih => exact List.forall_mem_cons.2 ⟨hdigit hc, ih⟩
  | separator hc _ ih =>
    exact List.forall_mem_cons.2 ⟨rfl, List.forall_mem_cons.2 ⟨hdigit hc, ih⟩⟩

theorem Fraction.unbroken {w fs : List Char} (h : Fraction w fs) :
    ∀ c ∈ w, breaksLine c = false := by
  cases h with
  | none => exact List.forall_mem_nil _
  | some hc hds =>
    exact List.forall_mem_cons.2 ⟨rfl, List.forall_mem_cons.2
      ⟨breaksLine_eq_false rfl rfl hc, hds.unbroken⟩⟩

theorem Exponent.unbroken {w es : List Char} (h : Exponent w es) :
    ∀ c ∈ w, breaksLine c = false := by
  cases h with
  | none => exact List.forall_mem_nil _
  | @some e sign c w ds he hsign hc hds =>
    have hmark : breaksLine e = false := by rcases he with rfl | rfl <;> rfl
    have hsign : ∀ d ∈ sign, breaksLine d = false := by
      refine List.all_iff_forall_prop.1 ?_
      rcases hsign with rfl | rfl | rfl <;> decide
    refine List.forall_mem_cons.2 ⟨hmark, List.forall_mem_append.2 ⟨hsign, ?_⟩⟩
    exact List.forall_mem_cons.2 ⟨breaksLine_eq_false rfl rfl hc, hds.unbroken⟩

theorem Numeral.unbroken {w : List Char} {n : NumberLiteral} (h : Numeral w n) :
    ∀ c ∈ w, breaksLine c = false := by
  cases h with
  | @marked m b w ds hm hds hne =>
    have hletter : breaksLine m = false :=
      breaksLine_eq_false (q := fun c => (NumberBase.ofLetter? c).isSome) rfl rfl (by rw [hm]; rfl)
    exact List.forall_mem_cons.2 ⟨rfl, List.forall_mem_cons.2 ⟨hletter, hds.unbroken⟩⟩
  | @decimal c w ds f fs e es j hc hds hf he hj =>
    have himaginary : ∀ d ∈ j, breaksLine d = false := by
      refine List.all_iff_forall_prop.1 ?_
      rcases hj with rfl | rfl | rfl <;> decide
    refine List.forall_mem_cons.2 ⟨breaksLine_eq_false rfl rfl hc, ?_⟩
    exact List.forall_mem_append.2 ⟨hds.unbroken, List.forall_mem_append.2
      ⟨hf.unbroken, List.forall_mem_append.2 ⟨he.unbroken, himaginary⟩⟩⟩

theorem Units.unbroken {q : Char} {v w : List Char} (h : Units q v w) :
    ∀ c ∈ w, breaksLine c = false := by
  induction h with
  | nil => exact List.forall_mem_nil _
  | plain hc _ _ _ ih => exact List.forall_mem_cons.2 ⟨hc, ih⟩
  | escape hc _ ih => exact List.forall_mem_cons.2 ⟨rfl, List.forall_mem_cons.2 ⟨hc, ih⟩⟩

theorem Lexeme.unbroken {w : List Char} {t : Token} (h : Lexeme w t) :
    ∀ c ∈ w, breaksLine c = false := by
  cases h with
  | identifier hname hnone =>
    obtain ⟨hc, hw⟩ := nameLike_iff.1 hname
    refine List.forall_mem_cons.2 ⟨breaksLine_eq_false rfl rfl hc, ?_⟩
    exact fun d hd => breaksLine_eq_false rfl rfl (hw d hd)
  | keyword k =>
    refine List.all_iff_forall_prop.1 ?_
    decide +revert +kernel
  | punctuator p => exact fun c hc => (p.special c hc).2.2.2.2.2
  | number h => exact h.unbroken
  | @string q v w hq h =>
    have hquote : breaksLine q = false := by rcases hq with rfl | rfl <;> rfl
    exact List.forall_mem_cons.2 ⟨hquote, List.forall_mem_append.2
      ⟨h.unbroken, List.forall_mem_singleton.2 hquote⟩⟩

end DrakeSyntax
