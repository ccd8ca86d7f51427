import DrakeSyntax.Proofs.Cutting.Gap
import DrakeSyntax.Proofs.Spelling
import DrakeSyntax.Proofs.Cells.Progress

/-!
# What an error of a text complains about

Each fault of a text stands for something that can be seen in the characters: those of the literal
that is being read, and those from the place of the fault on (`LexFault.Offends`). Four faults are
found where a token or a comment begins, the other three inside a number literal
(`LexFault.OffendsIn`).

* `LexError.BlamedIn`: a scan that fails inside a number literal has found one of the three faults.
* `CellScan.offends_lexeme`: the scan of a lexeme fails only where its characters offend.
* `LexFault.Offends.shows`: what offends in the cells of a source offends in its text.
-/

namespace DrakeSyntax

/-- The base in which a number literal with these characters at its front is written. -/
def literalBase : List Char → NumberBase
  | '0' :: m :: _ => (NumberBase.ofLetter? m).getD .decimal
  | _ => .decimal

example : literalBase "0x1_".toList = .hexadecimal := by decide

/-- Behind the characters `lit` of a number literal of the base `b`, the text goes on in a way that
is at fault. -/
inductive LexFault.OffendsIn (b : NumberBase) (lit : List Char) : LexFault → List Char → Prop
  /-- A separator is not followed by a digit. -/
  | misplacedSeparator {rest : List Char} (next : ∀ d ∈ rest.head?, d ∉ b.digits) :
      OffendsIn b lit .misplacedSeparator ('_' :: rest)
  /-- The literal is followed by a letter, a digit or a separator. -/
  | invalidDigit {d : Char} {rest : List Char} (touches : Text.isAlphanumeric d || d == '_') :
      OffendsIn b lit (.invalidDigit d b) (d :: rest)
  /-- The mark of the exponent, or its sign, is not followed by a digit. -/
  | missingExponent {back : List Char} (mark : ∃ m ∈ lit.getLast?, m ∈ ['e', 'E', '+', '-'])
      (next : ∀ d ∈ back.head?, ¬ d.isDigit) : OffendsIn b lit .missingExponent back

/-- **What a fault stands for**: `lit` is the literal up to the fault, if it lies in one, and `back`
the text from the fault on. -/
inductive LexFault.Offends : LexFault → (lit back : List Char) → Prop
  /-- The character is neither part of a gap nor the first one of a token. -/
  | unexpectedCharacter {c : Char} {rest : List Char} (gap : c ∉ blankChars ∧ ¬ breaksLine c)
      (word : ¬ c.isAlphanum ∧ c ≠ '_') (quote : c ≠ '"' ∧ c ≠ '\'')
      (punctuator : ∀ p : Punctuator, c ∉ p.spelling.toList.head?) :
      Offends (.unexpectedCharacter c) [] (c :: rest)
  | unterminatedString {q : Char} {rest : List Char} (quote : q = '"' ∨ q = '\'') :
      Offends .unterminatedString [] (q :: rest)
  /-- The comment is not closed. -/
  | unterminatedComment {rest : List Char} (unclosed : ¬ ['*', '/'] <:+: rest) :
      Offends .unterminatedComment [] ('/' :: '*' :: rest)
  /-- Nothing that could belong to the literal stands behind the mark of its base. -/
  | missingDigits {b : NumberBase} {rest : List Char} (mark : b.mark ≠ "")
      (next : ∀ d ∈ rest.head?, d ≠ '_' ∧ ¬ d.isAlphanum) :
      Offends (.missingDigits b) [] (b.mark.toList ++ rest)
  | number {f : LexFault} {c : Char} {lit back : List Char} (digit : c.isDigit)
      (offends : f.OffendsIn (literalBase (c :: lit)) (c :: lit) back) : Offends f (c :: lit) back

theorem LexFault.OffendsIn.offends {f : LexFault} {b : NumberBase} {c : Char}
    {lit back : List Char} (h : f.OffendsIn b (c :: lit) back) (digit : c.isDigit)
    (hbase : literalBase (c :: lit) = b) : f.Offends (c :: lit) back := by
  subst hbase
  exact .number digit h

variable {α β : Type} {b : NumberBase} {v : List Char} {s s' : CellSource} {e : LexError}
  {cells : List Cell}

theorem isAlphanumeric_of_isAlphanum {c : Char} (h : c.isAlphanum) : Text.isAlphanumeric c := by
  rw [Text.isAlphanumeric, if_pos (toNat_lt_of_isAlphanum h)]
  exact h

/-! ### Digits -/

/-- A run of digits ends at a separator only if no digit follows. -/
theorem DigitRun.read_misplaced {leading : Bool} (h : (read b leading cells).misplaced)
    (hlead : leading ∨ startsWithDigit b cells) :
    ∃ c rest, (read b leading cells).rest = c :: rest ∧ c.char = '_' ∧
      ∀ d ∈ rest.head?, ¬ b.accepts d.char := by
  fun_induction read b leading cells with
  | case1 => cases h
  | case2 leading c cs hc ih => exact ih h (.inl rfl)
  | case3 leading c cs hc hsep hnext ih =>
    exact ih h (.inr (Bool.and_eq_true_iff.1 hnext).2)
  | case4 leading c cs hc hsep hnext =>
    obtain rfl : leading = true := hlead.resolve_right fun hstart => hc hstart
    refine ⟨c, cs, rfl, hsep, fun d hd haccepts => hnext ?_⟩
    rw [Bool.true_and, startsWithDigit, Option.mem_def.1 hd]
    exact haccepts
  | case5 => cases h

/-- A run without digits takes nothing. -/
theorem DigitRun.read_empty (h : (read b true cells).digits = [])
    (hplaced : (read b true cells).misplaced = false) :
    (read b true cells).rest = cells ∧ ∀ c ∈ cells.head?, ¬ b.accepts c.char ∧ c.char ≠ '_' := by
  cases cells with
  | nil => exact ⟨rfl, nofun⟩
  | cons c cs =>
    rw [read] at h hplaced ⊢
    by_cases hc : b.accepts c.char
    · rw [if_pos hc] at h
      cases h
    rw [if_neg hc] at h hplaced ⊢
    by_cases hsep : c.char = '_'
    · rw [if_pos hsep] at h hplaced
      by_cases hnext : true && startsWithDigit b cs
      · -- the digit behind the separator is read
        rw [if_pos hnext] at h
        obtain ⟨d, hd, haccepts⟩ := (Option.any_eq_true ..).1 (Bool.and_eq_true_iff.1 hnext).2
        obtain ⟨ds, rfl⟩ := List.head?_eq_some_iff.1 hd
        rw [read, if_pos haccepts] at h
        cases h
      · rw [if_neg hnext] at hplaced
        cases hplaced
    · rw [if_neg hsep]
      refine ⟨rfl, fun d hd => ?_⟩
      obtain rfl := Option.some.inj hd
      exact ⟨hc, hsep⟩

/-! ### Scans inside a number literal -/

/-- The error lies in a number literal: cells of one line stand in front of its place, and what
stands there is at fault behind the characters `v` and those of the cells. -/
def LexError.BlamedIn (b : NumberBase) (v : List Char) (s : CellSource) (e : LexError) : Prop :=
  ∃ taken rest, s.cells = taken ++ rest ∧ Unbroken taken ∧
    e.position = CellSource.position ⟨rest, s.finish⟩ ∧
    e.fault.OffendsIn b (v ++ taken.map Cell.char) (rest.map Cell.char)

/-- Cells of the same line may be counted to the source or to what is in front of it. -/
theorem LexError.BlamedIn.behind (taken : List Cell) {rest : List Cell}
    (h : e.BlamedIn b (v ++ taken.map Cell.char) ⟨rest, s.finish⟩)
    (hcells : s.cells = taken ++ rest) (hline : Unbroken taken) : e.BlamedIn b v s := by
  obtain ⟨more, rest', hmore, hline', hposition, hoffends⟩ := h
  refine ⟨taken ++ more, rest', ?_, hline.append hline', hposition, ?_⟩
  · rw [hcells, List.append_assoc, ← hmore]
  · rwa [List.map_append, ← List.append_assoc]

namespace CellScan

/-- If the scan fails from the source, its error satisfies `P`. -/
def FailsAt (s : CellSource) (p : CellScan α) (P : LexError → Prop) : Prop :=
  ∀ e s', p s = .error e s' → P e

namespace FailsAt

variable {P : LexError → Prop} {p : CellScan α} {f : α → CellScan β}

theorem of_ok {a : α} (h : p s = .ok a s') : FailsAt s p P := by
  intro e s₁ hrun
  rw [h] at hrun
  cases hrun

theorem pure {a : α} : FailsAt s (Pure.pure a) P := of_ok rfl

theorem failHere {fault : LexFault} (h : P ⟨fault, s.position⟩) :
    FailsAt s (failHere fault : CellScan α) P := by
  intro e s' hrun
  cases hrun
  exact h

theorem failAt {position : Position} {fault : LexFault} (h : P ⟨fault, position⟩) :
    FailsAt s (failAt position fault : CellScan α) P := by
  intro e s' hrun
  cases hrun
  exact h

/-- The first of two scans fails, or the second one where the first one stopped. -/
theorem bind (hp : FailsAt s p P) (hf : ∀ a s', p s = .ok a s' → FailsAt s' (f a) P) :
    FailsAt s (p >>= f) P := by
  intro e s' hrun
  cases hfirst : p s with
  | error e₁ s₁ =>
    rw [bind_of_error hfirst] at hrun
    cases hrun
    exact hp e s' hfirst
  | ok a s₁ =>
    rw [bind_of_ok hfirst] at hrun
    exact hf a s₁ hfirst e s' hrun

/-- A scan that fails is not gone on with. -/
theorem failHere_bind {fault : LexFault} (h : P ⟨fault, s.position⟩) :
    FailsAt s (CellScan.failHere fault >>= f) P :=
  (failHere h).bind nofun

theorem failAt_bind {position : Position} {fault : LexFault} (h : P ⟨fault, position⟩) :
    FailsAt s (CellScan.failAt position fault >>= f) P :=
  (failAt h).bind nofun

theorem ahead_bind {n : Nat} {f : List Char → CellScan β}
    (hf : FailsAt s (f ((s.cells.take n).map Cell.char)) P) : FailsAt s (ahead n >>= f) P := hf

theorem skip_bind {n : Nat} {f : Unit → CellScan β}
    (hf : FailsAt ⟨s.cells.drop n, s.finish⟩ (f ()) P) : FailsAt s (skip n >>= f) P := hf

/-- The second scan may fail behind the cells that the first one took. -/
theorem bind_blamed {Q : List Char → α → Prop} (hp : FailsAt s p (·.BlamedIn b v s))
    (htakes : TakesAt s p Q)
    (hf : ∀ a (taken : List Cell) s', Q (taken.map Cell.char) a →
      FailsAt s' (f a) (·.BlamedIn b (v ++ taken.map Cell.char) s')) :
    FailsAt s (p >>= f) (·.BlamedIn b v s) := by
  refine hp.bind fun a s' hrun => ?_
  obtain ⟨taken, hcells, hfinish, hline, hQ⟩ := htakes a s' hrun
  obtain ⟨rest, finish⟩ := s'
  obtain rfl : finish = s.finish := hfinish
  exact fun e s'' herror => (hf a taken _ hQ e s'' herror).behind taken hcells hline

theorem takeIf_bind {q : Char → Bool} (hq : q '\n' = false) {f : List Char → CellScan β}
    (hf : ∀ cs s', cs = [] ∨ (∃ c, cs = [c] ∧ q c) →
      FailsAt s' (f cs) (·.BlamedIn b (v ++ cs) s')) :
    FailsAt s (takeIf q >>= f) (·.BlamedIn b v s) := by
  have htake : FailsAt s (takeIf q) (·.BlamedIn b v s) := by
    intro e s' hrun
    unfold takeIf at hrun
    split at hrun
    · split at hrun <;> cases hrun
    · cases hrun
  refine htake.bind_blamed (TakesAt.takeIf hq) fun cs taken s' hcs => ?_
  rw [hcs.1]
  exact hf cs s' hcs.2

end FailsAt

/-- What comes next is at fault. -/
theorem blamedIn_here {fault : LexFault} (h : fault.OffendsIn b v (s.cells.map Cell.char)) :
    LexError.BlamedIn b v s ⟨fault, s.position⟩ := by
  refine ⟨[], s.cells, rfl, unbroken_nil, rfl, ?_⟩
  rwa [List.map_nil, List.append_nil]

theorem blames_digits {leading : Bool} (hlead : leading ∨ DigitRun.startsWithDigit b s.cells) :
    FailsAt s (digits b leading) (·.BlamedIn b v s) := by
  intro e s' hrun
  rw [digits_run] at hrun
  obtain ⟨taken, hcells, hline, -⟩ := DigitRun.read_eq_append b leading s.cells
  split at hrun
  · next hmisplaced =>
    obtain ⟨c, rest, hrest, hsep, hnext⟩ := DigitRun.read_misplaced hmisplaced hlead
    cases hrun
    refine ⟨taken, _, hcells, hline, rfl, ?_⟩
    rw [hrest, List.map_cons, hsep]
    refine .misplacedSeparator fun d hd => ?_
    rw [List.head?_map, Option.mem_def, Option.map_eq_some_iff] at hd
    obtain ⟨d, hd, rfl⟩ := hd
    rw [← NumberBase.accepts_iff]
    exact hnext d hd
  · cases hrun

theorem blames_endNumber : FailsAt s (endNumber b) (·.BlamedIn b v s) := by
  unfold endNumber
  refine FailsAt.ahead_bind ?_
  split
  · next c rest hahead =>
    split
    · next htouches =>
      refine FailsAt.failHere (blamedIn_here ?_)
      obtain ⟨_ | ⟨d, cs⟩, finish⟩ := s
      · cases hahead
      · cases hahead
        exact .invalidDigit htouches
    · exact FailsAt.pure
  · exact FailsAt.pure

/-- Where a digit stands, digits are scanned. -/
theorem blames_digits_of_isDigit {d : Cell} {cs : List Cell} {finish : Position}
    {f : List Char → CellScan β} (hd : d.char.isDigit)
    (hf : ∀ ds s', FailsAt s' (f ds) fun _ => False) :
    FailsAt ⟨d :: cs, finish⟩ (digits .decimal false >>= f)
      (·.BlamedIn .decimal v ⟨d :: cs, finish⟩) := by
  have hstart : DigitRun.startsWithDigit .decimal (d :: cs) := by
    change NumberBase.accepts .decimal d.char = true
    rwa [NumberBase.accepts_decimal]
  exact (blames_digits (.inr hstart)).bind fun ds s' _ e s'' herror => (hf ds s' e s'' herror).elim

theorem blames_fraction : FailsAt s fraction (·.BlamedIn .decimal v s) := by
  obtain ⟨cells, finish⟩ := s
  unfold fraction
  refine FailsAt.ahead_bind ?_
  split
  · next c rest hahead =>
    split
    · next hc =>
      obtain _ | ⟨point, _ | ⟨d, cs⟩⟩ := cells
      · cases hahead
      · simp at hahead
      · obtain ⟨hpoint, rfl, -⟩ : point.char = '.' ∧ d.char = c ∧ _ := by simpa using hahead
        have hline : Unbroken [point] := unbroken_nil.cons (by simp [Cell.isBreak, hpoint])
        refine FailsAt.skip_bind fun e s' herror => ?_
        exact (blames_digits_of_isDigit hc (fun _ _ => FailsAt.pure) e s' herror).behind
          [point] rfl hline
    · exact FailsAt.pure
  · exact FailsAt.pure

theorem blames_exponent : FailsAt s exponent (·.BlamedIn .decimal v s) := by
  unfold exponent
  refine FailsAt.takeIf_bind rfl fun mark s₁ hmark => ?_
  split
  · exact FailsAt.pure
  next hempty =>
  obtain rfl | ⟨m, rfl, hm⟩ := hmark
  · exact absurd rfl hempty
  refine FailsAt.takeIf_bind rfl fun sign s₂ hsign => FailsAt.ahead_bind ?_
  -- the mark or the sign stands in front of what comes next
  have hlast : ∃ c ∈ (v ++ [m] ++ sign).getLast?, c ∈ ['e', 'E', '+', '-'] := by
    obtain rfl | ⟨c, rfl, hc⟩ := hsign
    · have hm : m = 'e' ∨ m = 'E' := by simpa using hm
      rw [List.append_nil]
      exact ⟨m, List.getLast?_concat, by rcases hm with rfl | rfl <;> decide⟩
    · have hc : c = '+' ∨ c = '-' := by simpa using hc
      exact ⟨c, List.getLast?_concat, by rcases hc with rfl | rfl <;> decide⟩
  split
  · next c rest hahead =>
    obtain ⟨_ | ⟨d, cs⟩, finish⟩ := s₂
    · cases hahead
    cases hahead
    split
    · next hc =>
      refine FailsAt.failHere_bind (blamedIn_here (.missingExponent hlast fun d hd => ?_))
      cases hd
      simpa using hc
    · next hc => exact blames_digits_of_isDigit (by simpa using hc) fun _ _ => FailsAt.pure
  · next hahead =>
    refine FailsAt.failHere_bind (blamedIn_here (.missingExponent hlast fun d hd => ?_))
    obtain ⟨_ | ⟨c, cs⟩, finish⟩ := s₂
    · cases hd
    · cases hahead

theorem blames_decimalNumber (first : Char) :
    FailsAt s (decimalNumber first) (·.BlamedIn .decimal v s) := by
  unfold decimalNumber
  refine (blames_digits (.inl rfl)).bind_blamed (takes_digits _ _) fun _ _ _ _ => ?_
  refine blames_fraction.bind_blamed takes_fraction fun _ _ _ _ => ?_
  refine blames_exponent.bind_blamed takes_exponent fun _ _ _ _ => ?_
  refine FailsAt.takeIf_bind rfl fun _ _ _ => ?_
  exact blames_endNumber.bind_blamed (takes_endNumber _) fun _ _ _ _ => FailsAt.pure

/-- A run without digits leaves the source as it is. -/
theorem digits_empty (h : digits b true s = .ok [] s') :
    s' = s ∧ ∀ c ∈ s.cells.head?, ¬ b.accepts c.char ∧ c.char ≠ '_' := by
  rw [digits_run] at h
  split at h
  · cases h
  next hplaced =>
  obtain ⟨hdigits, rfl⟩ := EStateM.Result.ok.inj h
  obtain ⟨hrest, hnext⟩ := DigitRun.read_empty hdigits (by simpa using hplaced)
  rw [hrest]
  exact ⟨rfl, hnext⟩

/-- Behind the mark of a base, the fault lies in the literal, or there is nothing that could belong
to it. -/
theorem blames_markedNumber (start : Position) :
    FailsAt s (markedNumber b start) fun e => e.BlamedIn b v s ∨
      e = ⟨.missingDigits b, start⟩ ∧ ∀ c ∈ s.cells.head?, c.char ≠ '_' ∧ ¬ c.char.isAlphanum := by
  unfold markedNumber
  have hdigits : FailsAt s (digits b true) (·.BlamedIn b v s) := blames_digits (.inl rfl)
  refine FailsAt.bind (fun e s' herror => .inl (hdigits e s' herror)) fun ds s₁ hrun => ?_
  split
  · next hempty =>
    obtain rfl : ds = [] := List.isEmpty_iff.1 hempty
    obtain ⟨rfl, hnext⟩ := digits_empty hrun
    refine FailsAt.ahead_bind ?_
    split
    · next c rest hahead =>
      obtain ⟨_ | ⟨d, cs⟩, finish⟩ := s₁
      · cases hahead
      cases hahead
      split
      · next hd =>
        refine FailsAt.failHere_bind (.inl (blamedIn_here (.invalidDigit ?_)))
        rw [isAlphanumeric_of_isAlphanum hd]
        rfl
      · next hd =>
        refine FailsAt.failAt_bind (.inr ⟨rfl, fun c hc => ?_⟩)
        have hsep := (hnext c hc).2
        cases hc
        exact ⟨hsep, hd⟩
    · next hahead =>
      refine FailsAt.failAt_bind (.inr ⟨rfl, fun c hc => ?_⟩)
      obtain ⟨_ | ⟨c, cs⟩, finish⟩ := s₁
      · cases hc
      · cases hahead
  · obtain ⟨taken, hcells, hfinish, hline, -⟩ := takes_digits b true ds s₁ hrun
    obtain ⟨rest, finish⟩ := s₁
    obtain rfl : finish = s.finish := hfinish
    refine FailsAt.bind (fun e s' herror => .inl ?_) fun _ _ _ => FailsAt.pure
    exact (blames_endNumber e s' herror).behind taken hcells hline

end CellScan

/-! ### Lexemes -/

/-- The first character of a punctuator is one. -/
theorem Punctuator.longest?_of_head? (p : Punctuator) {c : Char} (hc : c ∈ p.spelling.toList.head?)
    (k : List Char) : (longest? (c :: k)).isSome := by
  have hfirst : ∀ p : Punctuator,
      byLength.any fun q => q.spelling.toList == p.spelling.toList.take 1 := by
    decide +kernel
  obtain ⟨q, hq, hspelling⟩ := List.any_eq_true.1 (hfirst p)
  obtain ⟨w, hw⟩ := List.head?_eq_some_iff.1 hc
  rw [beq_iff_eq, hw] at hspelling
  rw [longest?, List.find?_isSome]
  exact ⟨q, hq, by rw [hspelling]; simp⟩

/-- The place of the error lies in the line of the source's first cell, and what stands there is at
fault. -/
def LexError.OffendsAt (s : CellSource) (e : LexError) : Prop :=
  ∃ taken rest, s.cells = taken ++ rest ∧ Unbroken taken ∧
    e.position = CellSource.position ⟨rest, s.finish⟩ ∧
    e.fault.Offends (taken.map Cell.char) (rest.map Cell.char)

namespace CellScan

theorem offends_number {c : Cell} {finish : Position} (hc : c.char.isDigit) :
    FailsAt ⟨cells, finish⟩ (number c.char c.position) (·.OffendsAt ⟨c :: cells, finish⟩) := by
  have hbreak : c.isBreak = false := Cell.isBreak_of_char rfl hc
  unfold number
  refine FailsAt.ahead_bind ?_
  split
  · next b hzero hletter =>
    obtain _ | ⟨m, cs⟩ := cells
    · cases hletter
    have hm : NumberBase.ofLetter? m.char = some b := hletter
    refine FailsAt.skip_bind fun e s' herror => ?_
    rcases blames_markedNumber (v := [c.char, m.char]) c.position e s' herror with
      ⟨taken, rest, hcells, hline, hposition, hoffends⟩ | ⟨rfl, hnext⟩
    · have hmbreak : m.isBreak = false :=
        Cell.isBreak_of_char (q := fun c => (NumberBase.ofLetter? c).isSome) rfl (by rw [hm]; rfl)
      have hbase : literalBase (c.char :: m.char :: taken.map Cell.char) = b := by
        rw [hzero, literalBase, hm]
        rfl
      exact ⟨c :: m :: taken, rest, congrArg (c :: m :: ·) hcells, (hline.cons hmbreak).cons hbreak,
        hposition, hoffends.offends hc hbase⟩
    · have hmark : b.mark.toList = [c.char, m.char] := by
        rw [hzero, NumberBase.mark_of_ofLetter? hm]
      have hoffends : LexFault.Offends (.missingDigits b) []
          (b.mark.toList ++ cs.map Cell.char) := by
        refine .missingDigits (fun hempty => ?_) fun d hd => ?_
        · rw [hempty] at hmark
          cases hmark
        · rw [List.head?_map, Option.mem_def, Option.map_eq_some_iff] at hd
          obtain ⟨d, hd, rfl⟩ := hd
          exact hnext d hd
      rw [hmark] at hoffends
      exact ⟨[], c :: m :: cs, rfl, unbroken_nil, rfl, hoffends⟩
  · next hmark =>
    intro e s' herror
    obtain ⟨taken, rest, hcells, hline, hposition, hoffends⟩ :=
      blames_decimalNumber c.char (v := [c.char]) e s' herror
    have hbase : literalBase (c.char :: taken.map Cell.char) = .decimal := by
      unfold literalBase
      split
      · next m w hw =>
        obtain ⟨hzero, htaken⟩ := List.cons.inj hw
        have hnone : NumberBase.ofLetter? m = none := by
          cases hm : NumberBase.ofLetter? m with
          | none => rfl
          | some b =>
            obtain ⟨d, ds, rfl, rfl, -⟩ := List.map_eq_cons_iff.1 htaken
            obtain rfl : cells = d :: (ds ++ rest) := hcells
            exact (hmark b hzero hm).elim
        rw [hnone]
        rfl
      · rfl
    exact ⟨c :: taken, rest, congrArg (c :: ·) hcells, hline.cons hbreak, hposition,
      hoffends.offends hc hbase⟩

/-- **A lexeme fails where its characters are at fault.** -/
theorem offends_lexeme {c : Cell} {cs : List Cell} (hblank : isBlank c.char = false)
    (hline : breaksLine c.char = false) (finish : Position) :
    FailsAt ⟨c :: cs, finish⟩ (lexeme c.char c.position) (·.OffendsAt ⟨c :: cs, finish⟩) := by
  unfold lexeme
  refine FailsAt.ahead_bind ?_
  split
  · exact FailsAt.skip_bind FailsAt.pure
  next hnone =>
  split
  · exact (FailsAt.of_ok rfl).bind fun _ _ _ => FailsAt.pure
  next hword =>
  refine FailsAt.skip_bind ?_
  split
  · next hquote =>
    refine FailsAt.bind (fun e s' herror => ?_) fun _ _ _ => FailsAt.pure
    rw [stringLiteral_run] at herror
    split at herror
    · cases herror
    · cases herror
      exact ⟨[], c :: cs, rfl, unbroken_nil, rfl, .unterminatedString (by simpa using hquote)⟩
  next hquote =>
  split
  · next hdigit =>
    exact (offends_number hdigit).bind fun _ _ _ => FailsAt.pure
  next hdigit =>
  have hword : ¬ c.char.isAlpha ∧ c.char ≠ '_' := by simpa [isWordStart] using hword
  have hquote : c.char ≠ '"' ∧ c.char ≠ '\'' := by simpa using hquote
  refine FailsAt.failAt ⟨[], c :: cs, rfl, unbroken_nil, rfl, .unexpectedCharacter ⟨?_, ?_⟩
    ⟨?_, hword.2⟩ hquote fun p hp => ?_⟩
  · rw [← isBlank_iff, hblank]
    exact Bool.false_ne_true
  · rw [hline]
    exact Bool.false_ne_true
  · rw [Char.isAlphanum, Bool.or_eq_true, not_or]
    exact ⟨hword.1, hdigit⟩
  · have hsome := p.longest?_of_head? hp ((cs.take 2).map Cell.char)
    change Punctuator.longest? (c.char :: (cs.take 2).map Cell.char) = none at hnone
    rw [hnone] at hsome
    cases hsome

end CellScan

/-! ### Texts -/

namespace CellSource.Shows

variable {offset : Nat} {k : List Char}

/-- The text has the characters of cells that are no line breaks. -/
theorem front {w rest : List Char} (hs : s.Shows offset k)
    (h : s.cells.map Cell.char = w ++ rest) (hw : '\n' ∉ w) : ∃ k' s', k = w ++ k' ∧
      Shows s' (offset + byteLength w) k' ∧ s'.cells.map Cell.char = rest := by
  obtain ⟨taken, left, hcells, rfl, rfl⟩ := List.map_eq_append_iff.1 h
  have hline : Unbroken taken := by
    intro c hc
    rw [Cell.isBreak, beq_eq_false_iff_ne]
    exact fun hbreak => hw (List.mem_map.2 ⟨c, hc, hbreak⟩)
  obtain ⟨k', hk, -, hshows⟩ := hs.drop hcells hline
  exact ⟨k', ⟨left, s.finish⟩, hk, hshows, rfl⟩

/-- A text does not begin with a character of which no cell has its like. -/
theorem head {q : Char → Bool} (hs : s.Shows offset k) (hn : q '\n' = false) (hr : q '\r' = false)
    (h : ∀ d ∈ (s.cells.map Cell.char).head?, ¬ q d) : ∀ d ∈ k.head?, ¬ q d := by
  obtain ⟨p, rfl, rfl⟩ := hs
  intro d hd
  obtain ⟨k, rfl⟩ := List.head?_eq_some_iff.1 hd
  cases hline : breaksLine d with
  | true =>
    obtain rfl | rfl : d = '\n' ∨ d = '\r' := by simpa [breaksLine] using hline
    · rw [hn]
      exact Bool.false_ne_true
    · rw [hr]
      exact Bool.false_ne_true
  | false =>
    refine h d ?_
    rw [ofChars_cons hline]
    rfl

/-- A comment that its cells do not close is not closed by the text. -/
theorem unclosed (hs : s.Shows offset k) (h : ¬ ['*', '/'] <:+: s.cells.map Cell.char) :
    ¬ ['*', '/'] <:+: k := by
  obtain ⟨p, rfl, rfl⟩ := hs
  rintro ⟨u, v, rfl⟩
  have hcut : ofChars p (u ++ ['*', '/'] ++ v) =
      behind (ofChars p u).cells (ofChars (ofChars p u).finish ('*' :: '/' :: v)) := by
    rw [List.append_assoc]
    exact ofChars_append_of_getLast? (fun _ => by simp) p
  rw [hcut, behind_cells, List.map_append, ofChars_cons rfl, ofChars_cons rfl] at h
  exact h ⟨_, _, List.append_assoc ..⟩

end CellSource.Shows

/-- What is at fault in the cells of a source is at fault in its text. -/
theorem LexFault.Offends.shows {f : LexFault} {lit back k : List Char} {offset : Nat}
    (h : f.Offends lit back) (hback : s.cells.map Cell.char = back) (hs : s.Shows offset k) :
    f.Offends lit k := by
  cases h with
  | @unexpectedCharacter c rest gap word quote punctuator =>
    have hc : '\n' ∉ [c] := by
      rw [List.mem_singleton]
      rintro rfl
      exact gap.2 rfl
    obtain ⟨k', s', rfl, -, -⟩ := hs.front hback hc
    exact .unexpectedCharacter gap word quote punctuator
  | @unterminatedString q rest quote =>
    have hq : '\n' ∉ [q] := by rcases quote with rfl | rfl <;> decide
    obtain ⟨k', s', rfl, -, -⟩ := hs.front hback hq
    exact .unterminatedString quote
  | unterminatedComment unclosed =>
    obtain ⟨k', s', rfl, hs', rfl⟩ := hs.front (w := ['/', '*']) hback (by decide)
    exact .unterminatedComment (hs'.unclosed unclosed)
  | @missingDigits b rest mark next =>
    have hmark : '\n' ∉ b.mark.toList := by cases b <;> decide
    obtain ⟨k', s', rfl, hs', rfl⟩ := hs.front hback hmark
    have hnext := hs'.head (q := fun d => d == '_' || d.isAlphanum) rfl rfl (by simpa using next)
    exact .missingDigits mark (by simpa using hnext)
  | number digit offends =>
    refine .number digit ?_
    cases offends with
    | misplacedSeparator next =>
      obtain ⟨k', s', rfl, hs', rfl⟩ := hs.front (w := ['_']) hback (by decide)
      have hbreaks (b : NumberBase) : b.accepts '\n' = false ∧ b.accepts '\r' = false := by
        cases b <;> decide
      simp only [← NumberBase.accepts_iff] at next
      have hnext := hs'.head (hbreaks _).1 (hbreaks _).2 next
      simp only [NumberBase.accepts_iff] at hnext
      exact .misplacedSeparator hnext
    | @invalidDigit d rest touches =>
      have hd : '\n' ∉ [d] := by
        rw [List.mem_singleton]
        rintro rfl
        cases touches
      obtain ⟨k', s', rfl, -, -⟩ := hs.front hback hd
      exact .invalidDigit touches
    | missingExponent mark next =>
      exact .missingExponent mark (hs.head rfl rfl (hback ▸ next))

/-- The place of the error in the text, and what is at fault there. -/
theorem LexError.OffendsAt.shows {k : List Char} {offset : Nat} (h : e.OffendsAt s)
    (hs : s.Shows offset k) : ∃ lit back, k = lit ++ back ∧
      e.position.offset = offset + byteLength lit ∧ e.fault.Offends lit back := by
  obtain ⟨taken, rest, hcells, hline, hposition, hoffends⟩ := h
  obtain ⟨back, hk, -, hback⟩ := hs.drop hcells hline
  rw [hposition, hback.position_offset]
  exact ⟨_, back, hk, rfl, hoffends.shows rfl hback⟩

end DrakeSyntax
