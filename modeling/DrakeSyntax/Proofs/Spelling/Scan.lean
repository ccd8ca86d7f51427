import DrakeSyntax.Proofs.Layout
import DrakeSyntax.Proofs.Layout.Scan

/-!
# Scanning what was spelled

`CellScan.Reads k p w a` says that the scan `p` takes the characters `w` in front of the characters
`k` and returns `a`. A lexeme is read as its token if what stands behind it cannot belong to it:
it is the end, or one of the characters in `stops` (`CellScan.reads_lexeme`).
-/

namespace DrakeSyntax

/-- The characters with which no lexeme goes on: blanks, line breaks and the first one of a
comment. -/
def stops : List Char := [' ', '\t', '\x0b', '\x0c', '\n', '\r', '/']

/-- What holds of the first characters of two texts holds of the first one of both. -/
theorem head_append {P : Char → Prop} {u k : List Char} (hu : ∀ c ∈ u.head?, P c)
    (hk : ∀ c ∈ k.head?, P c) : ∀ c ∈ (u ++ k).head?, P c := by
  cases u with
  | nil => exact hk
  | cons c u => exact hu

variable {α β : Type} {k w w' : List Char} {a : α} {b : β}

namespace CellScan

/-- In front of `k` the scan takes `w` and returns `a`. -/
def Reads (k : List Char) (p : CellScan α) (w : List Char) (a : α) : Prop :=
  ∀ taken rest finish, taken.map Cell.char = w → rest.map Cell.char = k →
    p ⟨taken ++ rest, finish⟩ = .ok a ⟨rest, finish⟩

namespace Reads

theorem pure : Reads k (Pure.pure a) [] a := by
  intro taken rest finish htaken _
  rw [List.map_eq_nil_iff] at htaken
  subst htaken
  rfl

theorem bind {p : CellScan α} {f : α → CellScan β} (hp : Reads (w' ++ k) p w a)
    (hf : Reads k (f a) w' b) : Reads k (p >>= f) (w ++ w') b := by
  intro taken rest finish htaken hrest
  obtain ⟨u, u', rfl, hu, hu'⟩ := List.map_eq_append_iff.1 htaken
  rw [List.append_assoc, bind_of_ok (hp u (u' ++ rest) finish hu (by rw [List.map_append, hu', hrest]))]
  exact hf u' rest finish hu' hrest

/-- A scan may be followed by one that takes nothing. -/
theorem bind_nil {p : CellScan α} {f : α → CellScan β} (hp : Reads k p w a)
    (hf : Reads k (f a) [] b) :
    Reads k (p >>= f) w b := by
  rw [← List.append_nil w]
  exact bind hp hf

theorem map {p : CellScan α} {f : α → β} (hp : Reads k p w a) :
    Reads k (p >>= fun x => Pure.pure (f x)) w (f a) :=
  bind_nil hp pure

theorem ahead_bind {n : Nat} {f : List Char → CellScan β}
    (hf : Reads k (f ((w ++ k).take n)) w b) : Reads k (ahead n >>= f) w b := by
  intro taken rest finish htaken hrest
  have hahead : ((taken ++ rest).take n).map Cell.char = (w ++ k).take n := by
    rw [List.map_take, List.map_append, htaken, hrest]
  rw [← hahead] at hf
  exact hf taken rest finish htaken hrest

theorem skip_bind {f : Unit → CellScan β} (hf : Reads k (f ()) w' b) :
    Reads k (skip w.length >>= f) (w ++ w') b := by
  refine bind (a := ()) ?_ hf
  intro taken rest finish htaken _
  rw [← htaken, List.length_map]
  exact congrArg (fun cells => EStateM.Result.ok () (CellSource.mk cells finish)) List.drop_left

theorem takeIf_one {q : Char → Bool} {c : Char} (hc : q c) : Reads k (takeIf q) [c] [c] := by
  intro taken rest finish htaken _
  obtain ⟨d, tail, rfl, rfl, htail⟩ := List.map_eq_cons_iff.1 htaken
  rw [List.map_eq_nil_iff] at htail
  subst htail
  exact if_pos hc

theorem takeIf_none {q : Char → Bool} (hk : ∀ c ∈ k.head?, q c = false) :
    Reads k (takeIf q) [] [] := by
  intro taken rest finish htaken hrest
  rw [List.map_eq_nil_iff] at htaken
  subst htaken
  cases rest with
  | nil => rfl
  | cons c rest =>
    subst hrest
    have hc := hk c.char rfl
    unfold takeIf
    simp only [List.nil_append, hc, Bool.false_eq_true, if_false]

end Reads

theorem reads_digits {base : NumberBase} {leading : Bool} {ds : List Char}
    (h : Digits base leading w ds) (hk : ∀ c ∈ k.head?, ¬ base.accepts c ∧ c ≠ '_') :
    Reads k (digits base leading) w ds := by
  intro taken rest finish htaken hrest
  have hread : DigitRun.read base leading (taken ++ rest) = ⟨ds, false, rest⟩ := by
    refine DigitRun.read_of_digits h htaken ?_
    intro c hc
    refine hk c.char ?_
    rw [← hrest, List.head?_map]
    exact Option.mem_map_of_mem Cell.char hc
  unfold digits
  rw [get_bind_run, hread]
  rfl

theorem reads_endNumber (base : NumberBase) (hk : ∀ c ∈ k.head?, c ∈ stops) :
    Reads k (endNumber base) [] () := by
  unfold endNumber
  refine Reads.ahead_bind ?_
  cases k with
  | nil => exact Reads.pure
  | cons c k =>
    have hstop : (Text.isAlphanumeric c || c == '_') = false := by
      have hall : ∀ c ∈ stops, (Text.isAlphanumeric c || c == '_') = false :=
        List.all_iff_forall_prop.1 (by decide)
      exact hall c (hk c rfl)
    simp only [List.nil_append, List.take_succ_cons, List.take_zero, hstop, Bool.false_eq_true,
      if_false]
    exact Reads.pure

/-- Where a digit stands, digits are read. -/
theorem reads_digits_of_isDigit {c : Char} {ds : List Char} (hc : c.isDigit)
    (h : Digits .decimal true w ds) (hk : ∀ d ∈ k.head?, d.isDigit = false ∧ d ≠ '_') :
    Reads k (digits .decimal false) (c :: w) (c :: ds) := by
  refine reads_digits (.digit ?_ h) ?_
  · rwa [NumberBase.accepts_decimal]
  · intro d hd
    rw [NumberBase.accepts_decimal, (hk d hd).1]
    exact ⟨Bool.false_ne_true, (hk d hd).2⟩

theorem reads_fraction {fs : List Char} (h : Fraction w fs)
    (hk : ∀ c ∈ k.head?, c.isDigit = false ∧ c ≠ '_' ∧ c ≠ '.') : Reads k fraction w fs := by
  unfold fraction
  refine Reads.ahead_bind ?_
  cases h with
  | none =>
    split
    · next c rest hahead =>
      cases k with
      | nil => cases hahead
      | cons d k =>
        have hd : d = '.' := (List.cons.inj hahead).1
        exact absurd hd (hk d rfl).2.2
    · exact Reads.pure
  | @some c w ds hc hdigits =>
    simp only [List.cons_append, List.take_succ_cons, List.take_zero, hc, if_true]
    refine Reads.skip_bind (w := ['.']) (Reads.map (reads_digits_of_isDigit hc hdigits ?_))
    exact fun d hd => ⟨(hk d hd).1, (hk d hd).2.1⟩

theorem reads_exponent {es : List Char} (h : Exponent w es)
    (hk : ∀ c ∈ k.head?, c.isDigit = false ∧ c ≠ '_' ∧ c ≠ 'e' ∧ c ≠ 'E') :
    Reads k exponent w es := by
  unfold exponent
  cases h with
  | none =>
    refine Reads.bind (w := []) (Reads.takeIf_none ?_) Reads.pure
    intro c hc
    simpa using (hk c hc).2.2
  | @some e sign c w ds he hsign hc hdigits =>
    refine Reads.bind (w := [e]) (Reads.takeIf_one (by simpa using he)) ?_
    simp only [List.isEmpty_cons, Bool.false_eq_true, if_false]
    refine Reads.bind (a := sign) ?_ (Reads.ahead_bind ?_)
    · rcases hsign with rfl | rfl | rfl
      · refine Reads.takeIf_none ?_
        rintro d ⟨rfl⟩
        have hplus : c ≠ '+' := fun h => by
          rw [h] at hc
          cases hc
        have hminus : c ≠ '-' := fun h => by
          rw [h] at hc
          cases hc
        simpa using ⟨hplus, hminus⟩
      · exact Reads.takeIf_one rfl
      · exact Reads.takeIf_one rfl
    · simp only [List.cons_append, List.take_succ_cons, List.take_zero, hc, Bool.not_true,
        Bool.false_eq_true, if_false]
      refine Reads.map (f := fun ds => [e] ++ sign ++ ds) (reads_digits_of_isDigit hc hdigits ?_)
      exact fun d hd => ⟨(hk d hd).1, (hk d hd).2.1⟩

/-! Behind each part of a decimal number stands a later part or a stop. -/

theorem head_imaginary {j : List Char} (hj : j = [] ∨ j = ['j'] ∨ j = ['J'])
    (hk : ∀ c ∈ k.head?, c ∈ stops) : ∀ c ∈ (j ++ k).head?, c ∈ 'j' :: 'J' :: stops := by
  refine head_append ?_ fun c hc => .tail _ (.tail _ (hk c hc))
  rcases hj with rfl | rfl | rfl <;> simp

theorem head_exponent {e es : List Char} (he : Exponent e es)
    (hk : ∀ c ∈ k.head?, c ∈ 'j' :: 'J' :: stops) :
    ∀ c ∈ (e ++ k).head?, c ∈ 'e' :: 'E' :: 'j' :: 'J' :: stops := by
  refine head_append ?_ fun c hc => .tail _ (.tail _ (hk c hc))
  cases he with
  | none => simp
  | some he => simpa using .imp_right .inl he

theorem head_fraction {f fs : List Char} (hf : Fraction f fs)
    (hk : ∀ c ∈ k.head?, c ∈ 'e' :: 'E' :: 'j' :: 'J' :: stops) :
    ∀ c ∈ (f ++ k).head?, c ∈ '.' :: 'e' :: 'E' :: 'j' :: 'J' :: stops := by
  refine head_append ?_ fun c hc => .tail _ (hk c hc)
  cases hf <;> simp

theorem reads_decimalNumber (first : Char) {ds f fs e es j : List Char}
    (hds : Digits .decimal true w ds) (hf : Fraction f fs) (he : Exponent e es)
    (hj : j = [] ∨ j = ['j'] ∨ j = ['J']) (hk : ∀ c ∈ k.head?, c ∈ stops) :
    Reads k (decimalNumber first) (w ++ (f ++ (e ++ j)))
      ⟨String.ofList (first :: ds ++ fs ++ es ++ j), .decimal⟩ := by
  have hheadj := head_imaginary hj hk
  have hheade := head_exponent he hheadj
  have hheadf := head_fraction hf hheade
  have hnotf : ∀ c ∈ '.' :: 'e' :: 'E' :: 'j' :: 'J' :: stops, c.isDigit = false ∧ c ≠ '_' :=
    List.all_iff_forall_prop.1 (by decide)
  have hnote : ∀ c ∈ 'e' :: 'E' :: 'j' :: 'J' :: stops,
      c.isDigit = false ∧ c ≠ '_' ∧ c ≠ '.' :=
    List.all_iff_forall_prop.1 (by decide)
  have hnotj : ∀ c ∈ 'j' :: 'J' :: stops,
      c.isDigit = false ∧ c ≠ '_' ∧ c ≠ 'e' ∧ c ≠ 'E' :=
    List.all_iff_forall_prop.1 (by decide)
  unfold decimalNumber
  refine Reads.bind (reads_digits hds ?_) (Reads.bind (reads_fraction hf ?_)
    (Reads.bind (reads_exponent he ?_) ?_))
  · intro c hc
    rw [List.append_assoc, List.append_assoc] at hc
    have := hnotf c (hheadf c hc)
    rw [NumberBase.accepts_decimal, this.1]
    exact ⟨Bool.false_ne_true, this.2⟩
  · intro c hc
    rw [List.append_assoc] at hc
    exact hnote c (hheade c hc)
  · exact fun c hc => hnotj c (hheadj c hc)
  · have hstop : ∀ c ∈ stops, (c == 'j' || c == 'J') = false :=
      List.all_iff_forall_prop.1 (by decide)
    have hj' : Reads k (takeIf fun c => c == 'j' || c == 'J') j j := by
      rcases hj with rfl | rfl | rfl
      · exact Reads.takeIf_none fun c hc => hstop c (hk c hc)
      · exact Reads.takeIf_one rfl
      · exact Reads.takeIf_one rfl
    exact Reads.bind_nil hj' (Reads.bind_nil (reads_endNumber .decimal hk) Reads.pure)

theorem reads_markedNumber {base : NumberBase} {start : Position} {ds : List Char}
    (hds : Digits base true w ds) (hne : ds ≠ []) (hk : ∀ c ∈ k.head?, c ∈ stops) :
    Reads k (markedNumber base start) w ⟨String.ofList ds, base⟩ := by
  have hstop : ∀ c ∈ stops, ¬ base.accepts c ∧ c ≠ '_' := by
    refine List.all_iff_forall_prop.1 ?_
    cases base <;> decide
  have hempty : ds.isEmpty = false := by
    rw [List.isEmpty_eq_false_iff]
    exact hne
  unfold markedNumber
  refine Reads.bind_nil (reads_digits hds fun c hc => hstop c (hk c hc)) ?_
  rw [hempty]
  exact Reads.bind_nil (reads_endNumber base hk) Reads.pure

theorem ofLetter?_of_isDigit {c : Char} (h : c.isDigit) : NumberBase.ofLetter? c = none := by
  unfold NumberBase.ofLetter?
  split
  · cases h
  · cases h
  · cases h
  · rfl

theorem reads_number {first : Char} {n : NumberLiteral} {start : Position}
    (h : Numeral (first :: w) n) (hk : ∀ c ∈ k.head?, c ∈ stops) :
    Reads k (number first start) w n := by
  unfold number
  refine Reads.ahead_bind ?_
  cases h with
  | @marked m base w ds hm hds hne =>
    have hletter : (((m :: w) ++ k).take 1).head?.bind NumberBase.ofLetter? = some base := hm
    rw [hletter]
    exact Reads.skip_bind (w := [m]) (reads_markedNumber hds hne hk)
  | @decimal _ w ds f fs e es j hfirst hds hf he hj =>
    -- no base begins with what may stand behind the first digit
    have hhead : ∀ c ∈ (w ++ (f ++ (e ++ (j ++ k)))).head?, NumberBase.ofLetter? c = none := by
      refine head_append ?_ fun c hc => ?_
      · intro c hc
        cases hds with
        | nil => cases hc
        | digit hd =>
          cases hc
          rw [NumberBase.accepts_decimal] at hd
          exact ofLetter?_of_isDigit hd
        | separator =>
          cases hc
          rfl
      · have hnone : ∀ c ∈ '.' :: 'e' :: 'E' :: 'j' :: 'J' :: stops,
            NumberBase.ofLetter? c = none :=
          List.all_iff_forall_prop.1 (by decide)
        exact hnone c (head_fraction hf (head_exponent he (head_imaginary hj hk)) c hc)
    have hletter : (((w ++ (f ++ (e ++ j))) ++ k).take 1).head?.bind NumberBase.ofLetter? =
        none := by
      rw [List.head?_take, if_neg Nat.one_ne_zero, List.append_assoc, List.append_assoc,
        List.append_assoc]
      cases hc : (w ++ (f ++ (e ++ (j ++ k)))).head? with
      | none => rfl
      | some c => exact hhead c hc
    rw [hletter]
    split
    · next hsome => cases hsome
    · exact reads_decimalNumber _ hds hf he hj hk

end CellScan

/-! ### Words and punctuators -/

theorem Punctuator.length_spelling_le (p : Punctuator) : p.spelling.toList.length ≤ 3 := by
  decide +revert +kernel

/-- No punctuator goes on with a stop. -/
theorem Punctuator.not_mem_stops (p : Punctuator) :
    ∀ c ∈ p.spelling.toList.tail, c ∉ stops := by
  refine List.all_iff_forall_prop.1 ?_
  decide +revert +kernel

/-- No longer punctuator begins with `p` and goes on with the first of the characters. -/
def Punctuator.Ends (p : Punctuator) (k : List Char) : Prop :=
  ∀ c ∈ k.head?, ∀ q : Punctuator, ¬ p.spelling.toList ++ [c] <+: q.spelling.toList

/-- Every character that goes on with a punctuator is one of its later characters. -/
theorem Punctuator.ends_of_forall {p : Punctuator}
    (hk : ∀ c ∈ k.head?, ∀ q : Punctuator, c ∉ q.spelling.toList.tail) : p.Ends k := by
  rintro c hc q ⟨more, hmore⟩
  refine hk c hc q ?_
  cases hspelling : p.spelling.toList with
  | nil => exact absurd hspelling (Lexeme.punctuator p).ne_nil
  | cons d w =>
    rw [← hmore, hspelling]
    simp

/-- A stop behind a punctuator ends it. -/
theorem Punctuator.ends_of_stops {p : Punctuator} (hk : ∀ c ∈ k.head?, c ∈ stops) : p.Ends k :=
  ends_of_forall fun c hc q hq => q.not_mem_stops c hq (hk c hc)

/-- What a punctuator does not go on with ends it. -/
theorem Punctuator.isPrefixOf_append_iff (p q : Punctuator) (hk : p.Ends k) :
    q.spelling.toList.isPrefixOf ((p.spelling.toList ++ k).take 3) =
      q.spelling.toList.isPrefixOf p.spelling.toList := by
  rw [Bool.eq_iff_iff, List.isPrefixOf_iff_prefix, List.isPrefixOf_iff_prefix,
    List.prefix_take_iff]
  constructor
  · rintro ⟨⟨rest, hrest⟩, -⟩
    by_cases hle : q.spelling.toList.length ≤ p.spelling.toList.length
    · exact List.prefix_of_prefix_length_le ⟨rest, hrest⟩ (List.prefix_append ..) hle
    · -- the longer one would go on with the first character behind the other
      obtain ⟨more, hmore⟩ := List.prefix_of_prefix_length_le (List.prefix_append _ k)
        ⟨rest, hrest⟩ (by omega)
      rw [← hmore, List.append_assoc, List.append_cancel_left_eq] at hrest
      cases more with
      | nil =>
        rw [List.append_nil] at hmore
        rw [hmore] at hle
        exact absurd (Nat.le_refl _) hle
      | cons c more =>
        subst hrest
        refine absurd ⟨more, ?_⟩ (hk c rfl q)
        rw [List.append_assoc]
        exact hmore
  · intro hfront
    exact ⟨hfront.trans (List.prefix_append ..), q.length_spelling_le⟩

theorem Punctuator.longest?_spelling (p : Punctuator) (hk : p.Ends k) :
    longest? ((p.spelling.toList ++ k).take 3) = some p := by
  have hself : ∀ p : Punctuator,
      byLength.find? (fun q => q.spelling.toList.isPrefixOf p.spelling.toList) = some p := by
    decide +kernel
  unfold longest?
  simp only [isPrefixOf_append_iff p _ hk]
  exact hself p

/-- No punctuator begins with a character that begins something else. -/
theorem Punctuator.longest?_eq_none {c : Char} (hc : ∀ p : Punctuator, c ∉ p.spelling.toList) :
    longest? (c :: k) = none := by
  unfold longest?
  rw [List.find?_eq_none]
  intro p _ hp
  obtain ⟨rest, hrest⟩ := List.isPrefixOf_iff_prefix.1 hp
  cases hspelling : p.spelling.toList with
  | nil => exact (Lexeme.punctuator p).ne_nil hspelling
  | cons d w =>
    rw [hspelling] at hrest
    cases hrest
    exact hc p (by rw [hspelling]; exact List.mem_cons_self)

theorem Keyword.spelling_eq_cons (k : Keyword) :
    ∃ c w, k.spelling.toList = c :: w ∧ isWordStart c ∧ ∀ d ∈ w, isWordChar d := by
  cases k <;> exact ⟨_, _, rfl, by decide, List.all_iff_forall_prop.1 (by decide)⟩

namespace CellScan

theorem Reads.takeWhile {q : Char → Bool} (hw : ∀ d ∈ w, q d)
    (hk : ∀ c ∈ k.head?, q c = false) : Reads k (takeWhile q) w w := by
  intro taken rest finish htaken hrest
  subst htaken
  have hall : ∀ c ∈ taken, q c.char := fun c hc => hw c.char (List.mem_map_of_mem hc)
  have hnone : rest.takeWhile (q ·.char) = [] ∧ rest.dropWhile (q ·.char) = rest := by
    cases rest with
    | nil => exact ⟨rfl, rfl⟩
    | cons c rest =>
      subst hrest
      have hc := hk c.char rfl
      simp [hc]
  unfold CellScan.takeWhile
  rw [List.takeWhile_append_of_pos hall, List.dropWhile_append_of_pos hall, hnone.1, hnone.2,
    List.append_nil]

/-- A word ends where a character stands that it cannot go on with. -/
theorem reads_word {c : Char} (start : Position) (hc : isWordStart c)
    (hw : ∀ d ∈ w, isWordChar d) (hk : ∀ c ∈ k.head?, isWordChar c = false) :
    Reads k (lexeme c start) (c :: w) (.ofWord (String.ofList (c :: w))) := by
  have hnone : Punctuator.longest? (((c :: w) ++ k).take 3) = none := by
    refine Punctuator.longest?_eq_none fun p hp => ?_
    rw [(p.special c hp).1] at hc
    cases hc
  unfold lexeme
  refine Reads.ahead_bind ?_
  rw [hnone]
  simp only [hc, if_true]
  refine Reads.map (Reads.takeWhile ?_ hk)
  exact List.forall_mem_cons.2 ⟨isWordChar_of_isWordStart hc, hw⟩

/-- A word that is no keyword is read as a name. -/
theorem reads_name {c : Char} (start : Position) (hc : isWordStart c)
    (hw : ∀ d ∈ w, isWordChar d) (hkeyword : ∀ k : Keyword, k.spelling ≠ String.ofList (c :: w))
    (hk : ∀ c ∈ k.head?, isWordChar c = false) :
    Reads k (lexeme c start) (c :: w) (.identifier (String.ofList (c :: w))) := by
  have hread := reads_word start hc hw hk
  unfold Token.ofWord at hread
  rw [Keyword.ofWord?_eq_none_iff.2 hkeyword] at hread
  exact hread

/-- A punctuator is read where no longer one begins. -/
theorem reads_punctuator (p : Punctuator) (c : Char) (start : Position) (hk : p.Ends k) :
    Reads k (lexeme c start) p.spelling.toList (.punctuator p) := by
  unfold lexeme
  refine Reads.ahead_bind ?_
  rw [p.longest?_spelling hk]
  have hread : Reads k (skip p.spelling.toList.length >>= fun _ => pure (.punctuator p))
      (p.spelling.toList ++ []) (Token.punctuator p) :=
    Reads.skip_bind Reads.pure
  rw [List.append_nil, String.length_toList] at hread
  exact hread

theorem isDigit_of_numeral {c : Char} {n : NumberLiteral} (h : Numeral (c :: w) n) :
    c.isDigit := by
  cases h with
  | marked => rfl
  | decimal hc => exact hc

theorem isWordStart_of_isDigit {c : Char} (h : c.isDigit) : isWordStart c = false := by
  have hunderscore : c ≠ '_' := by
    rintro rfl
    cases h
  simp only [Char.isDigit, Bool.and_eq_true, decide_eq_true_eq, UInt32.le_iff_toNat_le] at h
  have h9 : '9'.val.toNat = 57 := rfl
  have hA : 'A'.val.toNat = 65 := rfl
  have ha : 'a'.val.toNat = 97 := rfl
  have hupper : ¬ (c.val ≥ 'A'.val ∧ c.val ≤ 'Z'.val) := by
    rw [ge_iff_le, UInt32.le_iff_toNat_le]
    omega
  have hlower : ¬ c.val ≥ 'a'.val := by
    rw [ge_iff_le, UInt32.le_iff_toNat_le]
    omega
  change ((decide (c.val ≥ 'A'.val ∧ c.val ≤ 'Z'.val) ||
    (decide (c.val ≥ 'a'.val) && decide (c.val ≤ 'z'.val))) || c == '_') = false
  rw [decide_eq_false hupper, decide_eq_false hlower, beq_false_of_ne hunderscore]
  rfl

theorem reads_lexeme_number {c : Char} {n : NumberLiteral} (start : Position)
    (h : Numeral (c :: w) n) (hk : ∀ c ∈ k.head?, c ∈ stops) :
    Reads k (lexeme c start) (c :: w) (.number n) := by
  have hc := isDigit_of_numeral h
  have hnone : Punctuator.longest? (((c :: w) ++ k).take 3) = none := by
    refine Punctuator.longest?_eq_none fun p hp => ?_
    rw [(p.special c hp).2.1] at hc
    cases hc
  have hquote : (c == '"' || c == '\'') = false := by
    rw [Bool.or_eq_false_iff, beq_eq_false_iff_ne, beq_eq_false_iff_ne]
    constructor
    all_goals
      rintro rfl
      cases hc
  unfold lexeme
  refine Reads.ahead_bind ?_
  rw [hnone]
  simp only [isWordStart_of_isDigit hc, hquote, hc, Bool.false_eq_true, if_false, if_true]
  exact Reads.skip_bind (w := [c]) (Reads.map (reads_number h hk))

/-- Behind a quote, the rest of a string literal is read. -/
theorem lexeme_quote {q : Char} (hq : q = '"' ∨ q = '\'') {c : Cell} (hc : c.char = q)
    (cells : List Cell)
    (finish start : Position) : lexeme c.char start ⟨c :: cells, finish⟩ =
      match StringBody.read q cells with
      | .closed value rest => .ok (.string (String.ofList value)) ⟨rest, finish⟩
      | .unclosed rest => .error ⟨.unterminatedString, start⟩ ⟨rest, finish⟩ := by
  have hnone : Punctuator.longest? (((c :: cells).take 3).map Cell.char) = none := by
    rw [List.take_succ_cons, List.map_cons, hc]
    refine Punctuator.longest?_eq_none fun p hp => ?_
    rcases hq with rfl | rfl
    · exact (p.special _ hp).2.2.1 rfl
    · exact (p.special _ hp).2.2.2.1 rfl
  have hword : isWordStart q = false := by rcases hq with rfl | rfl <;> rfl
  have hquote : (q == '"' || q == '\'') = true := by simpa using hq
  have hahead : ahead 3 ⟨c :: cells, finish⟩ =
    .ok (((c :: cells).take 3).map Cell.char) ⟨c :: cells, finish⟩ := rfl
  unfold lexeme
  rw [bind_of_ok hahead, hnone, hc]
  simp only [hword, hquote, Bool.false_eq_true, if_false, if_true]
  change (stringLiteral q start >>= fun value => pure (Token.string value)) ⟨cells, finish⟩ = _
  simp only [Bind.bind, EStateM.bind, stringLiteral_run]
  cases StringBody.read q cells <;> rfl

theorem reads_lexeme_string {quote : Char} {v u : List Char} (start : Position)
    (hquote : quote = '"' ∨ quote = '\'') (h : Units quote v u) :
    Reads k (lexeme quote start) (quote :: (u ++ [quote])) (.string (String.ofList v)) := by
  intro taken rest finish htaken _
  obtain ⟨first, behind, rfl, hfirst, hbehind⟩ := List.map_eq_cons_iff.1 htaken
  obtain ⟨body, last, rfl, hbody, hlast⟩ := List.map_eq_append_iff.1 hbehind
  obtain ⟨c, tail, rfl, hc, htail⟩ := List.map_eq_cons_iff.1 hlast
  obtain rfl := List.map_eq_nil_iff.1 htail
  have hne : quote ≠ '\n' ∧ quote ≠ '\\' := by rcases hquote with rfl | rfl <;> decide
  have hread : StringBody.read quote (body ++ [c] ++ rest) = .closed v rest := by
    rw [List.append_assoc]
    exact StringBody.read_of_units h hne hbody hc
  rw [List.cons_append, ← hfirst, lexeme_quote hquote hfirst, hread]

/-- **A lexeme is read as its token.** -/
theorem reads_lexeme {t : Token} {u : List Char} {c : Char} (h : Lexeme u t) (hu : u = c :: w)
    (start : Position) (hk : ∀ c ∈ k.head?, c ∈ stops) : Reads k (lexeme c start) (c :: w) t := by
  have hstop : ∀ c ∈ stops, isWordChar c = false := List.all_iff_forall_prop.1 (by decide)
  cases h with
  | identifier hname hkeyword =>
    cases hu
    obtain ⟨hc, hw⟩ := nameLike_iff.1 hname
    exact reads_name start hc hw hkeyword fun c hc => hstop c (hk c hc)
  | keyword kw =>
    obtain ⟨c', w', hspelling, hc, hw⟩ := kw.spelling_eq_cons
    obtain ⟨rfl, rfl⟩ := List.cons.inj (hspelling.symm.trans hu)
    have hread := reads_word start hc hw fun c hc => hstop c (hk c hc)
    unfold Token.ofWord at hread
    rw [← hu, String.ofList_toList, Keyword.ofWord?_spelling] at hread
    rw [← hu]
    exact hread
  | punctuator p =>
    rw [← hu]
    exact reads_punctuator p c start (Punctuator.ends_of_stops hk)
  | number hn =>
    subst hu
    exact reads_lexeme_number start hn hk
  | string hquote hunits =>
    cases hu
    exact reads_lexeme_string start hquote hunits

end CellScan

end DrakeSyntax
