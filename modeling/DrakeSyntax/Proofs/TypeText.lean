import DrakeSyntax.Proofs.Spelling.Tokenize
import DrakeSyntax.Proofs.Writing.RoundTrip

/-!
# Types read from their texts

The text of a type is read as the tokens that the type is written as (`TypeHint.readsAs_text`): a
name ends at the bracket or the comma behind it, and no punctuator goes on with what stands behind
it in such a text. So a declaration is read back whose type is given by its text
(`parse_typeHint_text`).
-/

namespace DrakeSyntax

/-! ### Names and punctuators -/

/-- A punctuator that no other one begins with ends anywhere. -/
theorem Punctuator.ends_of_unique {p : Punctuator} {k : List Char}
    (hp : ∀ q : Punctuator, p.spelling.toList <+: q.spelling.toList → q = p) : p.Ends k := by
  intro c _ q hprefix
  obtain rfl := hp q ((List.prefix_append ..).trans hprefix)
  have hlength := hprefix.length_le
  rw [List.length_append, List.length_singleton] at hlength
  omega

/-- No punctuator goes on with the first character of a word. -/
theorem Punctuator.ends_of_isWordStart {p : Punctuator} {c : Char} {k : List Char}
    (hc : isWordStart c) : p.Ends (c :: k) := by
  refine ends_of_forall ?_
  rintro d ⟨rfl⟩ q hd
  rw [(q.special c (List.mem_of_mem_tail hd)).1] at hc
  cases hc

/-- Neither a bracket nor a comma begins a longer punctuator. -/
theorem Punctuator.ends_separator {p : Punctuator}
    (hp : p ∈ [leftBracket, rightBracket, comma]) (k : List Char) : p.Ends k := by
  refine ends_of_unique fun q => ?_
  simp only [List.mem_cons, List.not_mem_nil, or_false] at hp
  rcases hp with rfl | rfl | rfl
  all_goals decide +revert +kernel

namespace ReadsAs

variable {k : List Char} {us : List Token}

/-- A name ends where a character stands that no word goes on with. -/
theorem identifier {name : String} (hname : (Token.identifier name).Spellable)
    (hk : ∀ c ∈ k.head?, isWordChar c = false) (h : ReadsAs k us) :
    ReadsAs (name.toList ++ k) (.identifier name :: us) := by
  have hfree : GapFree (name.toList ++ k) := hname.lexeme.gapFree Token.noConfusion
  have hline : ∀ c ∈ name.toList, breaksLine c = false := hname.lexeme.unbroken
  obtain ⟨⟨c, w, rfl, hlike⟩, hkeyword⟩ := hname
  obtain ⟨hc, hw⟩ := nameLike_iff.1 hlike
  rw [String.toList_ofList] at hfree hline ⊢
  exact of_reads hline hfree Token.noConfusion (fun start q =>
    CellScan.reads_name start hc hw hkeyword (CellSource.head_ofChars (by decide) hk q)) h

/-- A punctuator ends where no longer one goes on. -/
theorem punctuator (p : Punctuator) (hp : p ≠ .slash) (hk : p.Ends k) (h : ReadsAs k us) :
    ReadsAs (p.spelling.toList ++ k) (.punctuator p :: us) := by
  have hfree : GapFree (p.spelling.toList ++ k) := p.gapFree fun hslash => absurd hslash hp
  have hline := (Lexeme.punctuator p).unbroken
  have hbreak : p.Ends ['\n'] := Punctuator.ends_of_stops fun c hc => by cases hc; decide
  cases hspelling : p.spelling.toList with
  | nil => exact absurd hspelling (Lexeme.punctuator p).ne_nil
  | cons c w =>
    rw [hspelling] at hfree hline
    refine of_reads hline hfree Token.noConfusion (fun start q => ?_) h
    rw [← hspelling]
    exact CellScan.reads_punctuator p c start (CellSource.head_ofChars (hbreak '\n' rfl) hk q)

/-- A blank in front is passed over. -/
theorem blank (hk : GapFree k) (h : ReadsAs k us) : ReadsAs (' ' :: k) us :=
  gap hk (.blank (by decide) .nil) h

end ReadsAs

/-! ### Types -/

namespace TypeHint

mutual

/-- The names in a type. -/
def names : TypeHint → List String
  | ⟨name, parameters, _⟩ => name :: namesAll parameters

/-- The names in the types of a list. -/
def namesAll : List TypeHint → List String
  | [] => []
  | t :: ts => t.names ++ namesAll ts

end

/-- Every name of the type can be spelled. -/
def Spellable (t : TypeHint) : Prop := ∀ name ∈ t.names, (Token.identifier name).Spellable

theorem mem_namesAll {name : String} {ts : List TypeHint} :
    name ∈ namesAll ts ↔ ∃ t ∈ ts, name ∈ t.names := by
  induction ts with
  | nil => simp [namesAll]
  | cons t ts ih => simp [namesAll, ih]

theorem spellable_iff {name : String} {parameters : List TypeHint} {position : Position} :
    Spellable ⟨name, parameters, position⟩ ↔
      (Token.identifier name).Spellable ∧ ∀ p ∈ parameters, p.Spellable := by
  simp only [Spellable, names, List.mem_cons, mem_namesAll, forall_eq_or_imp]
  refine and_congr_right fun _ => ⟨fun h p hp name hname => h name ⟨p, hp, hname⟩, ?_⟩
  rintro h name ⟨p, hp, hname⟩
  exact h p hp name hname

variable {t : TypeHint}

/-- The text of a type begins with its name. -/
theorem exists_text_eq (t : TypeHint) : ∃ rest, t.text.toList = t.name.toList ++ rest := by
  obtain ⟨name, parameters, position⟩ := t
  cases parameters with
  | nil => exact ⟨[], by simp [text]⟩
  | cons p ps => simp [text, String.toList_append, List.append_assoc]

/-- The text of a type begins like a word. -/
theorem Spellable.exists_cons (ht : t.Spellable) :
    ∃ c w, t.text.toList = c :: w ∧ isWordStart c := by
  obtain ⟨rest, hrest⟩ := t.exists_text_eq
  obtain ⟨name, parameters, position⟩ := t
  obtain ⟨⟨⟨c, w, rfl, hname⟩, -⟩, -⟩ := spellable_iff.1 ht
  rw [String.toList_ofList, List.cons_append] at hrest
  exact ⟨c, _, hrest, (nameLike_iff.1 hname).1⟩

theorem Spellable.gapFree (ht : t.Spellable) (k : List Char) : GapFree (t.text.toList ++ k) := by
  obtain ⟨c, w, htext, hc⟩ := ht.exists_cons
  rw [htext]
  have hstops : ∀ d ∈ stops, isWordStart d = false := List.all_iff_forall_prop.1 (by decide)
  exact gapFree_cons (not_mem_stops hstops hc) _

/-- No punctuator goes on with the text of a type. -/
theorem Spellable.ends (ht : t.Spellable) (p : Punctuator) (k : List Char) :
    p.Ends (t.text.toList ++ k) := by
  obtain ⟨c, w, htext, hc⟩ := ht.exists_cons
  rw [htext]
  exact Punctuator.ends_of_isWordStart hc

/-- A list of types begins with the text of the first one. -/
theorem texts_cons_cons (t t' : TypeHint) (ts : List TypeHint) :
    (", ".intercalate (texts (t :: t' :: ts))).toList =
      t.text.toList ++ ',' :: ' ' :: (", ".intercalate (texts (t' :: ts))).toList := by
  rw [texts, texts, String.intercalate_cons_cons, String.toList_append, String.toList_append,
    List.append_assoc]
  rfl

theorem exists_texts_eq (t : TypeHint) (ts : List TypeHint) :
    ∃ rest, (", ".intercalate (texts (t :: ts))).toList = t.text.toList ++ rest := by
  cases ts with
  | nil => exact ⟨[], by simp [texts]⟩
  | cons t' ts => exact ⟨_, texts_cons_cons t t' ts⟩

mutual

/-- **The text of a type is read as the type is written**, where no word goes on behind it. -/
theorem readsAs_text {k : List Char} {us : List Token} (t : TypeHint) (ht : t.Spellable)
    (hk : ∀ c ∈ k.head?, isWordChar c = false) (h : ReadsAs k us) :
    ReadsAs (t.text.toList ++ k) (t.written ++ us) := by
  obtain ⟨name, parameters, position⟩ := t
  obtain ⟨hname, hall⟩ := spellable_iff.1 ht
  cases parameters with
  | nil => exact h.identifier hname hk
  | cons p ps =>
    have hclose : ReadsAs (']' :: k) (.punctuator .rightBracket :: us) :=
      h.punctuator .rightBracket (by decide) (Punctuator.ends_separator (by decide) k)
    have hinside := readsAs_texts (p :: ps) hall (fun c hc => by cases hc; rfl) hclose
    have hopen := hinside.punctuator .leftBracket (by decide)
      (Punctuator.ends_separator (by decide) _)
    have hread := hopen.identifier hname fun c hc => by cases hc; rfl
    have htext : (text ⟨name, p :: ps, position⟩).toList ++ k = name.toList ++
        ('[' :: ((", ".intercalate (texts (p :: ps))).toList ++ ']' :: k)) := by
      simp [text, String.toList_append]
    have hwritten : written ⟨name, p :: ps, position⟩ ++ us = .identifier name ::
        .punctuator .leftBracket :: (commaList (writtenAll (p :: ps)) ++
          .punctuator .rightBracket :: us) := by
      simp [written, inBrackets]
    rw [htext, hwritten]
    exact hread

/-- The texts of types with commas between them are read as the types are written in a list. -/
theorem readsAs_texts {k : List Char} {us : List Token} (ts : List TypeHint)
    (hts : ∀ t ∈ ts, t.Spellable) (hk : ∀ c ∈ k.head?, isWordChar c = false) (h : ReadsAs k us) :
    ReadsAs ((", ".intercalate (texts ts)).toList ++ k) (commaList (writtenAll ts) ++ us) := by
  cases ts with
  | nil => exact h
  | cons t ts =>
    obtain ⟨ht, hrest⟩ := List.forall_mem_cons.1 hts
    have hread := readsAs_texts ts hrest hk h
    cases ts with
    | nil =>
      have hone := readsAs_text t ht hk h
      simpa [texts, writtenAll, commaList] using hone
    | cons t' ts =>
      have ht' : t'.Spellable := hrest t' List.mem_cons_self
      obtain ⟨rest, hfirst⟩ := exists_texts_eq t' ts
      have hblank := hread.blank (by rw [hfirst, List.append_assoc]; exact ht'.gapFree _)
      have hcomma := hblank.punctuator .comma (by decide)
        (Punctuator.ends_separator (by decide) _)
      have hall := readsAs_text t ht (fun c hc => by cases hc; rfl) hcomma
      have hwritten : commaList (writtenAll (t :: t' :: ts)) ++ us =
          t.written ++ .punctuator .comma :: (commaList (writtenAll (t' :: ts)) ++ us) := by
        simp only [writtenAll, commaList_cons, listTail_cons, List.append_assoc,
          List.cons_append]
      rw [texts_cons_cons, hwritten, List.append_assoc]
      exact hall

end

end TypeHint

/-! ### Declarations -/

/-- A program that is one declaration up to positions is one declaration. -/
theorem Program.eq_declaration {q : Program} {d : Declaration} {position : Position}
    (h : q.same ⟨[⟨.declaration d, position⟩]⟩) :
    ∃ d' p, q = ⟨[⟨.declaration d', p⟩]⟩ ∧ d'.same d := by
  obtain ⟨body⟩ := q
  cases Node.sameAll_iff.1 h with
  | @cons n _ _ _ hn hrest =>
    cases hrest
    obtain ⟨kind, p⟩ := n
    cases kind with
    | declaration d' => exact ⟨d', p, rfl, by simpa [Node.same, NodeKind.same] using hn⟩
    | _ => simp [Node.same, NodeKind.same] at hn

/-- **A type is read back from its text**: between angle brackets and with a name behind, it is
the type of a declaration of that name, which is all that is read. -/
theorem parse_typeHint_text {t : TypeHint} {x : String} (ht : t.Spellable)
    (hx : (Token.identifier x).Spellable) :
    ∃ t' p, parse ("<" ++ t.text ++ "> " ++ x) =
      .ok ⟨[⟨.declaration ⟨false, t', x⟩, p⟩]⟩ ∧ t'.same t := by
  have hfree : GapFree (x.toList ++ []) := hx.lexeme.gapFree Token.noConfusion
  have hname := ReadsAs.nil.identifier hx fun c hc => by cases hc
  have hclose := (hname.blank hfree).punctuator .greater (by decide)
    (Punctuator.ends_of_stops fun c hc => by cases hc; decide)
  have htype := t.readsAs_text ht (fun c hc => by cases hc; rfl) hclose
  have hread := htype.punctuator .less (by decide) (ht.ends .less _)
  have htext : ("<" ++ t.text ++ "> " ++ x).toList =
      '<' :: (t.text.toList ++ '>' :: ' ' :: (x.toList ++ [])) := by
    simp [String.toList_append]
  obtain ⟨ts, hts, htokens⟩ := ReadsAs.tokenize (by rw [htext]; exact hread)
  -- these are the tokens that the declaration is written as
  have hwritten : ts.map (·.token) =
      Program.written ⟨[⟨.declaration ⟨false, t, x⟩, .start⟩]⟩ true := by
    rw [htokens]
    simp [Program.written, commaList, parensUnless, Node.written, NodeKind.written,
      Declaration.written, TypeHint.angled]
  obtain ⟨q, hq, hsame⟩ := parseTokens_of_readable
    (List.forall_mem_singleton.2 (readable_declaration _)) true hwritten
  obtain ⟨⟨constant, t', x'⟩, p, rfl, hd⟩ := Program.eq_declaration hsame
  simp only [Declaration.same, Bool.and_eq_true, beq_iff_eq] at hd
  obtain ⟨⟨rfl, ht'⟩, rfl⟩ := hd
  refine ⟨t', p, ?_, ht'⟩
  rw [parse_of_tokenize hts, hq]
  rfl

/-- A type with a type inside a type. -/
theorem parse_typeHint_text_nested : ∃ t' p,
    parse "<Map[str, List[_1]]> x" = .ok ⟨[⟨.declaration ⟨false, t', "x"⟩, p⟩]⟩ ∧
      t'.same ⟨"Map", [⟨"str", [], .start⟩, ⟨"List", [⟨"_1", [], .start⟩], .start⟩], .start⟩ := by
  -- all of the names are words and none is a keyword
  have hword {name : String} (c : Char) (w : List Char) (hname : name = String.ofList (c :: w))
      (hc : isWordStart c) (hw : w.all isWordChar)
      (hkeyword : ∀ k : Keyword, k.spelling ≠ name) : (Token.identifier name).Spellable :=
    ⟨⟨c, w, hname, nameLike_iff.2 ⟨hc, List.all_eq_true.1 hw⟩⟩, hkeyword⟩
  have hmap : (Token.identifier "Map").Spellable :=
    hword 'M' ['a', 'p'] (by decide) (by decide) (by decide) (by decide +kernel)
  have hstr : (Token.identifier "str").Spellable :=
    hword 's' ['t', 'r'] (by decide) (by decide) (by decide) (by decide +kernel)
  have hlist : (Token.identifier "List").Spellable :=
    hword 'L' ['i', 's', 't'] (by decide) (by decide) (by decide) (by decide +kernel)
  have hone : (Token.identifier "_1").Spellable :=
    hword '_' ['1'] (by decide) (by decide) (by decide) (by decide +kernel)
  have hx : (Token.identifier "x").Spellable :=
    hword 'x' [] (by decide) (by decide) (by decide) (by decide +kernel)
  have hplain {name : String} (hname : (Token.identifier name).Spellable) :
      TypeHint.Spellable ⟨name, [], .start⟩ :=
    TypeHint.spellable_iff.2 ⟨hname, List.forall_mem_nil _⟩
  have hinner : TypeHint.Spellable ⟨"List", [⟨"_1", [], .start⟩], .start⟩ :=
    TypeHint.spellable_iff.2 ⟨hlist, List.forall_mem_singleton.2 (hplain hone)⟩
  have ht : TypeHint.Spellable ⟨"Map", [⟨"str", [], .start⟩,
      ⟨"List", [⟨"_1", [], .start⟩], .start⟩], .start⟩ :=
    TypeHint.spellable_iff.2 ⟨hmap, List.forall_mem_cons.2
      ⟨hplain hstr, List.forall_mem_singleton.2 hinner⟩⟩
  have htext : "<" ++ TypeHint.text ⟨"Map", [⟨"str", [], .start⟩,
      ⟨"List", [⟨"_1", [], .start⟩], .start⟩], .start⟩ ++ "> " ++ "x" =
        "<Map[str, List[_1]]> x" := by
    decide +kernel
  rw [← htext]
  exact parse_typeHint_text ht hx

end DrakeSyntax
