import DrakeSyntax.Proofs.Lexeme

/-!
# What a scan takes

`CellScan.TakesAt s p Q` says of a scan that succeeds from the source `s`: the cells it takes lie in
one line, and their characters and its result are in `Q`. The scan of a lexeme takes what writes
its token (`CellScan.takes_lexeme`).
-/

namespace DrakeSyntax.CellScan

variable {α β : Type} {s : CellSource} {Q : List Char → α → Prop} {R : List Char → β → Prop}

theorem bind_of_ok {p : CellScan α} {f : α → CellScan β} {a : α} {s' : CellSource}
    (h : p s = .ok a s') :
    (p >>= f) s = f a s' := by
  simp only [Bind.bind, EStateM.bind, h]

theorem get_bind_run (f : CellSource → CellScan β) (s : CellSource) : (get >>= f) s = f s s := rfl

/-- A success of a composition is one of both parts. -/
theorem bind_eq_ok {p : CellScan α} {f : α → CellScan β} {b : β} {s' : CellSource}
    (h : (p >>= f) s = .ok b s') : ∃ a s₁, p s = .ok a s₁ ∧ f a s₁ = .ok b s' := by
  cases hp : p s with
  | error e s₁ =>
    simp only [Bind.bind, EStateM.bind, hp] at h
    cases h
  | ok a s₁ =>
    rw [bind_of_ok hp] at h
    exact ⟨a, s₁, rfl, h⟩

/-- Digits are scanned as far as they are read. -/
theorem digits_run (b : NumberBase) (leading : Bool) (s : CellSource) :
    digits b leading s =
      if (DigitRun.read b leading s.cells).misplaced then
        .error ⟨.misplacedSeparator,
          CellSource.position ⟨(DigitRun.read b leading s.cells).rest, s.finish⟩⟩
          ⟨(DigitRun.read b leading s.cells).rest, s.finish⟩
      else .ok (DigitRun.read b leading s.cells).digits
        ⟨(DigitRun.read b leading s.cells).rest, s.finish⟩ := by
  unfold digits
  rw [get_bind_run]
  by_cases h : (DigitRun.read b leading s.cells).misplaced
  · simp only [h, if_true]
    rfl
  · simp only [h, Bool.false_eq_true, if_false]
    rfl

/-- A string literal is scanned as far as it is read. -/
theorem stringLiteral_run (quote : Char) (start : Position) (s : CellSource) :
    stringLiteral quote start s =
      match StringBody.read quote s.cells with
      | .closed value rest => .ok (String.ofList value) ⟨rest, s.finish⟩
      | .unclosed rest => .error ⟨.unterminatedString, start⟩ ⟨rest, s.finish⟩ := by
  unfold stringLiteral
  rw [get_bind_run]
  cases StringBody.read quote s.cells <;> rfl

/-- If the scan succeeds from the source, it takes cells of one line whose characters are related
by `Q` to its result. -/
def TakesAt (s : CellSource) (p : CellScan α) (Q : (w : List Char) → α → Prop) : Prop :=
  ∀ a s', p s = .ok a s' → ∃ taken, s.cells = taken ++ s'.cells ∧ s'.finish = s.finish ∧
    Unbroken taken ∧ Q (taken.map Cell.char) a

namespace TakesAt

theorem pure {a : α} (h : Q [] a) : TakesAt s (Pure.pure a) Q := by
  intro b s' hrun
  cases hrun
  exact ⟨[], rfl, rfl, unbroken_nil, h⟩

theorem weaken {Q' : List Char → α → Prop} {p : CellScan α} (h : TakesAt s p Q)
    (hQ : ∀ w a, Q w a → Q' w a) : TakesAt s p Q' := by
  intro a s' hrun
  obtain ⟨taken, hcells, hfinish, hline, hw⟩ := h a s' hrun
  exact ⟨taken, hcells, hfinish, hline, hQ _ _ hw⟩

/-- A scan that takes some cells and goes on as another one. -/
theorem behind {taken rest : List Cell} {p q : CellScan α} (hcells : s.cells = taken ++ rest)
    (hline : Unbroken taken) (hrun : p s = q ⟨rest, s.finish⟩)
    (hq : TakesAt ⟨rest, s.finish⟩ q fun w a => Q (taken.map Cell.char ++ w) a) :
    TakesAt s p Q := by
  intro a s' h
  rw [hrun] at h
  obtain ⟨taken', hcells', hfinish, hline', hQ⟩ := hq a s' h
  refine ⟨taken ++ taken', ?_, hfinish, hline.append hline', ?_⟩
  · rw [hcells, List.append_assoc, ← hcells']
  · rw [List.map_append]
    exact hQ

theorem bind {p : CellScan α} {f : α → CellScan β} (hp : TakesAt s p Q)
    (hf : ∀ a taken s', s.cells = taken ++ s'.cells → Q (taken.map Cell.char) a →
      TakesAt s' (f a) fun w b => R (taken.map Cell.char ++ w) b) :
    TakesAt s (p >>= f) R := by
  intro b s₂ hrun
  obtain ⟨a, ⟨rest, finish⟩, ha, hb⟩ := bind_eq_ok hrun
  obtain ⟨taken, hcells, hfinish, hline, hQ⟩ := hp a _ ha
  obtain rfl : finish = s.finish := hfinish
  exact behind hcells hline (bind_of_ok ha) (hf a taken _ hcells hQ) b s₂ hrun

theorem failHere {fault : LexFault} : TakesAt s (failHere fault) Q := by
  intro a s' hrun
  cases hrun

theorem failAt {position : Position} {fault : LexFault} : TakesAt s (failAt position fault) Q := by
  intro a s' hrun
  cases hrun

/-- A scan may depend on the source it starts from. -/
theorem get_bind {f : CellSource → CellScan β} (hf : TakesAt s (f s) R) :
    TakesAt s (get >>= f) R :=
  hf

theorem ahead_bind {n : Nat} {f : List Char → CellScan β}
    (hf : TakesAt s (f ((s.cells.take n).map Cell.char)) R) : TakesAt s (ahead n >>= f) R := hf

/-- Putting the rest of the cells takes what stands in front of it. -/
theorem setCells_bind (taken : List Cell) {rest : List Cell} {f : Unit → CellScan β}
    (hcells : s.cells = taken ++ rest) (hline : Unbroken taken)
    (hf : TakesAt ⟨rest, s.finish⟩ (f ()) fun w b => R (taken.map Cell.char ++ w) b) :
    TakesAt s (setCells rest >>= f) R :=
  behind hcells hline rfl hf

theorem skip_bind (taken : List Cell) {rest : List Cell} {f : Unit → CellScan β}
    (hcells : s.cells = taken ++ rest)
    (hline : Unbroken taken)
    (hf : TakesAt ⟨rest, s.finish⟩ (f ()) fun w b => R (taken.map Cell.char ++ w) b) :
    TakesAt s (skip taken.length >>= f) R := by
  refine behind hcells hline ?_ hf
  simp only [Bind.bind, EStateM.bind, skip, hcells, List.drop_left]

theorem takeIf {q : Char → Bool} (hq : q '\n' = false) :
    TakesAt s (takeIf q) fun w cs => w = cs ∧ (cs = [] ∨ ∃ c, cs = [c] ∧ q c) := by
  obtain ⟨cells, finish⟩ := s
  intro cs s' hrun
  cases cells with
  | nil =>
    cases hrun
    exact ⟨[], rfl, rfl, unbroken_nil, rfl, .inl rfl⟩
  | cons c cells =>
    unfold CellScan.takeIf at hrun
    by_cases hc : q c.char
    · simp only [hc, if_true] at hrun
      cases hrun
      exact ⟨[c], rfl, rfl, unbroken_nil.cons (Cell.isBreak_of_char hq hc), rfl,
        .inr ⟨c.char, rfl, hc⟩⟩
    · simp only [hc, Bool.false_eq_true, if_false] at hrun
      cases hrun
      exact ⟨[], rfl, rfl, unbroken_nil, rfl, .inl rfl⟩

theorem takeWhile {q : Char → Bool} (hq : q '\n' = false) :
    TakesAt s (takeWhile q) fun w cs =>
      w = cs ∧ cs = (s.cells.takeWhile (q ·.char)).map Cell.char := by
  intro cs s' hrun
  cases hrun
  refine ⟨_, List.takeWhile_append_dropWhile.symm, rfl, ?_, rfl, rfl⟩
  intro c hc
  exact Cell.isBreak_of_char hq (List.all_eq_true.1 List.all_takeWhile c hc)

end TakesAt

theorem takes_digits (b : NumberBase) (leading : Bool) :
    TakesAt s (digits b leading) (Digits b leading) := by
  unfold digits
  refine TakesAt.get_bind ?_
  obtain ⟨taken, hcells, hline, hdigits⟩ := DigitRun.read_eq_append b leading s.cells
  refine TakesAt.setCells_bind taken hcells hline ?_
  split
  · exact TakesAt.failHere
  · apply TakesAt.pure
    rw [List.append_nil]
    exact hdigits

/-- Where a digit stands, digits are scanned. -/
theorem takes_digits_of_isDigit {d : Cell} {cs : List Cell} {finish : Position}
    (hd : d.char.isDigit) : TakesAt ⟨d :: cs, finish⟩ (digits .decimal false) fun w ds =>
      ∃ w' ds', w = d.char :: w' ∧ ds = d.char :: ds' ∧ Digits .decimal true w' ds' := by
  have haccepts : NumberBase.decimal.accepts d.char := by rwa [NumberBase.accepts_decimal]
  have hread : DigitRun.read .decimal false (d :: cs) =
      (DigitRun.read .decimal true cs).cons d.char := by
    rw [DigitRun.read, if_pos haccepts]
  obtain ⟨taken, hcells, hline, hdigits⟩ := DigitRun.read_eq_append .decimal true cs
  unfold digits
  refine TakesAt.get_bind ?_
  simp only [hread]
  refine TakesAt.setCells_bind (d :: taken) (congrArg (d :: ·) hcells)
    (hline.cons (Cell.isBreak_of_accepts haccepts)) ?_
  split
  · exact TakesAt.failHere
  · apply TakesAt.pure
    exact ⟨_, _, by simp, rfl, hdigits⟩

theorem takes_endNumber (b : NumberBase) : TakesAt s (endNumber b) fun w _ => w = [] := by
  unfold endNumber
  refine TakesAt.ahead_bind ?_
  split
  · split
    · exact TakesAt.failHere
    · exact TakesAt.pure rfl
  · exact TakesAt.pure rfl

theorem takes_markedNumber (b : NumberBase) (start : Position) :
    TakesAt s (markedNumber b start) fun w n =>
      ∃ ds, Digits b true w ds ∧ ds ≠ [] ∧ n = ⟨String.ofList ds, b⟩ := by
  unfold markedNumber
  refine (takes_digits b true).bind fun ds taken s' _ hdigits => ?_
  split
  · refine TakesAt.ahead_bind ?_
    split
    · split
      · exact TakesAt.failHere.bind (Q := fun _ _ => True) fun _ _ _ _ _ => TakesAt.failAt
      · exact TakesAt.failAt
    · exact TakesAt.failAt
  · next hds =>
    refine (takes_endNumber b).bind fun _ taken' s'' _ htaken => ?_
    apply TakesAt.pure
    rw [htaken]
    exact ⟨ds, by simpa using hdigits, by simpa using hds, rfl⟩

theorem takes_fraction : TakesAt s fraction Fraction := by
  obtain ⟨cells, finish⟩ := s
  unfold fraction
  refine TakesAt.ahead_bind ?_
  split
  · next c rest hahead =>
    split
    · next hc =>
      obtain _ | ⟨point, _ | ⟨d, cs⟩⟩ := cells
      · cases hahead
      · simp at hahead
      · obtain ⟨hpoint, rfl, -⟩ : point.char = '.' ∧ d.char = c ∧ _ := by simpa using hahead
        refine TakesAt.skip_bind [point] rfl
          (unbroken_nil.cons (by simp [Cell.isBreak, hpoint])) ?_
        refine (takes_digits_of_isDigit hc).bind fun ds taken s' _ hdigits => ?_
        obtain ⟨w, ds', hw, rfl, hdigits⟩ := hdigits
        apply TakesAt.pure
        rw [hw, List.map_singleton, hpoint]
        simpa using Fraction.some hc hdigits
    · exact TakesAt.pure .none
  · exact TakesAt.pure .none

theorem takes_exponent : TakesAt s exponent Exponent := by
  unfold exponent
  refine (TakesAt.takeIf rfl).bind fun mark taken s₁ _ hmark => ?_
  obtain ⟨hw, hmark⟩ := hmark
  rw [hw]
  split
  · next hempty =>
    apply TakesAt.pure
    rw [List.isEmpty_iff.1 hempty]
    exact .none
  · next hempty =>
    obtain rfl | ⟨e, rfl, he⟩ := hmark
    · exact absurd rfl hempty
    refine (TakesAt.takeIf rfl).bind fun sign taken' s₂ _ hsign => TakesAt.ahead_bind ?_
    obtain ⟨hw', hsign⟩ := hsign
    rw [hw']
    split
    · next c rest hahead =>
      split
      · exact TakesAt.failHere.bind (Q := fun _ _ => False) fun _ _ _ _ h => h.elim
      · next hc =>
        obtain ⟨_ | ⟨d, cs⟩, finish⟩ := s₂
        · cases hahead
        · cases hahead
          have hd : d.char.isDigit := by simpa using hc
          refine (takes_digits_of_isDigit hd).bind fun ds taken'' s₃ _ hdigits => ?_
          obtain ⟨w, ds', hw'', rfl, hdigits⟩ := hdigits
          apply TakesAt.pure
          rw [hw'', List.append_nil]
          refine Exponent.some (by simpa using he) ?_ hd hdigits
          obtain rfl | ⟨c, rfl, hc⟩ := hsign
          · exact .inl rfl
          · obtain rfl | rfl : c = '+' ∨ c = '-' := by simpa using hc
            · exact .inr (.inl rfl)
            · exact .inr (.inr rfl)
    · exact TakesAt.failHere.bind (Q := fun _ _ => False) fun _ _ _ _ h => h.elim

theorem takes_decimalNumber {first : Char} (hfirst : first.isDigit) :
    TakesAt s (decimalNumber first) fun w n => Numeral (first :: w) n := by
  unfold decimalNumber
  refine (takes_digits .decimal true).bind fun whole taken₁ s₁ _ hwhole => ?_
  refine takes_fraction.bind fun fraction taken₂ s₂ _ hfraction => ?_
  refine takes_exponent.bind fun exponent taken₃ s₃ _ hexponent => ?_
  refine (TakesAt.takeIf rfl).bind fun imaginary taken₄ s₄ _ himaginary => ?_
  refine (takes_endNumber _).bind fun _ taken₅ s₅ _ hnone => ?_
  apply TakesAt.pure
  rw [hnone, List.append_nil, List.append_nil, himaginary.1]
  refine .decimal hfirst hwhole hfraction hexponent ?_
  obtain hj | ⟨c, rfl, hc⟩ := himaginary.2
  · exact .inl hj
  · obtain rfl | rfl : c = 'j' ∨ c = 'J' := by simpa using hc
    · exact .inr (.inl rfl)
    · exact .inr (.inr rfl)

theorem takes_number {first : Char} (hfirst : first.isDigit) (start : Position) :
    TakesAt s (number first start) fun w n => Numeral (first :: w) n := by
  obtain ⟨cells, finish⟩ := s
  unfold number
  refine TakesAt.ahead_bind ?_
  split
  · next b hb =>
    obtain _ | ⟨m, cs⟩ := cells
    · cases hb
    · have hm : NumberBase.ofLetter? m.char = some b := hb
      refine TakesAt.skip_bind [m] rfl (unbroken_nil.cons ?_) ?_
      · refine Cell.isBreak_of_char (q := fun c => (NumberBase.ofLetter? c).isSome) rfl ?_
        rw [hm]
        rfl
      · refine (takes_markedNumber b start).weaken ?_
        rintro w n ⟨ds, hw, hds, rfl⟩
        exact .marked hm hw hds
  · exact takes_decimalNumber hfirst

theorem takes_stringLiteral (quote : Char) (start : Position) :
    TakesAt s (stringLiteral quote start) fun w value =>
      ∃ u v, w = u ++ [quote] ∧ ('\r' ∉ u → Units quote v u) ∧ value = String.ofList v := by
  unfold stringLiteral
  refine TakesAt.get_bind ?_
  have hbody := StringBody.of_read quote s.cells
  split
  · next v rest h =>
    rw [h] at hbody
    obtain ⟨taken, c, hcells, hline, hc, hunits⟩ := hbody
    refine TakesAt.setCells_bind (taken ++ [c]) (by simp [hcells]) hline ?_
    apply TakesAt.pure
    exact ⟨_, v, by simp [hc], hunits, rfl⟩
  · intro value s' hrun
    cases hrun

theorem takes_punctuator {p : Punctuator}
    (hp : Punctuator.longest? ((s.cells.take 3).map Cell.char) = some p) :
    TakesAt s (do skip p.spelling.length; return Token.punctuator p) Lexeme := by
  obtain ⟨behind, hbehind⟩ :=
    (Punctuator.spelling_of_longest? hp).trans ((List.take_prefix 3 s.cells).map Cell.char)
  obtain ⟨taken, rest, hcells, htaken, -⟩ := List.map_eq_append_iff.1 hbehind.symm
  have hlength : p.spelling.length = taken.length := by
    rw [← String.length_toList, ← htaken, List.length_map]
  have hline : Unbroken taken := by
    intro d hd
    have hspelling : d.char ∈ p.spelling.toList := by
      rw [← htaken]
      exact List.mem_map_of_mem hd
    exact Cell.isBreak_of_breaksLine (p.special d.char hspelling).2.2.2.2.2
  rw [hlength]
  refine TakesAt.skip_bind taken hcells hline (TakesAt.pure ?_)
  rw [htaken, List.append_nil]
  exact .punctuator p

theorem takes_word {c : Cell} {cs : List Cell} {finish : Position} (hc : isWordStart c.char) :
    TakesAt ⟨c :: cs, finish⟩ (do return Token.ofWord (String.ofList (← takeWhile isWordChar)))
      Lexeme := by
  refine (TakesAt.takeWhile rfl).bind fun word taken s' _ hw => TakesAt.pure ?_
  obtain ⟨hw, hword⟩ := hw
  rw [List.takeWhile_cons, if_pos (isWordChar_of_isWordStart hc), List.map_cons] at hword
  rw [hw, hword, List.append_nil]
  refine lexeme_ofWord hc ?_
  intro d hd
  obtain ⟨e, he, rfl⟩ := List.mem_map.1 hd
  exact List.all_eq_true.1 List.all_takeWhile e he

/-- **A scanned token is written by the cells that were taken.** A `\r` is no cell of a
source. -/
theorem takes_lexeme {c : Cell} {cs : List Cell} {finish : Position} (hc : c.isBreak = false)
    (start : Position) : TakesAt ⟨c :: cs, finish⟩ (lexeme c.char start) fun w t =>
      '\r' ∉ w → Lexeme w t := by
  unfold lexeme
  refine TakesAt.ahead_bind ?_
  split
  · next p hp => exact (takes_punctuator hp).weaken fun w t hw _ => hw
  split
  · next hword => exact (takes_word hword).weaken fun w t hw _ => hw
  refine TakesAt.skip_bind [c] rfl (unbroken_nil.cons hc) ?_
  split
  · next hquote =>
    refine (takes_stringLiteral c.char start).bind fun value taken s' _ hvalue => ?_
    obtain ⟨u, v, hu, hunits, rfl⟩ := hvalue
    apply TakesAt.pure
    rw [hu, List.append_nil]
    intro hr
    refine .string (by simpa using hquote) (hunits fun h => hr ?_)
    simp [h]
  split
  · next hdigit =>
    refine (takes_number hdigit start).bind fun n taken s' _ hn => ?_
    apply TakesAt.pure
    rw [List.append_nil]
    intro _
    exact .number hn
  · exact TakesAt.failAt

end DrakeSyntax.CellScan
