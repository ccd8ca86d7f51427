import DrakeSyntax.Proofs.Cells.Token
import DrakeSyntax.Proofs.Relocation

/-!
# Scanning at other positions

A scan copies positions and does nothing else with them. So when the cells of a source are put at
other positions, it takes the same cells and returns the same result, or fails in the same way, at
the other positions (`CellScan.Relocates`).

* `CellScan.relocates_token`: scanning a token.
* `CellSource.takeUpTo_relocate`: reading all tokens.
-/

namespace DrakeSyntax

variable (f : Position → Position)

/-- A cell at another position. -/
def Cell.relocate (c : Cell) : Cell := ⟨c.char, f c.position⟩

/-- A source at other positions. -/
def CellSource.relocate (s : CellSource) : CellSource := ⟨s.cells.map (Cell.relocate f), f s.finish⟩

/-- The state of a gap at another position. -/
def GapState.relocate : GapState → GapState
  | plain => plain
  | lineComment => lineComment
  | blockComment start star => blockComment (f start) star

/-- A gap at other positions. -/
def Gap.relocate (g : Gap) : Gap :=
  ⟨g.firstBreak.map f, g.openComment.map f, g.rest.map (Cell.relocate f)⟩

/-- The rest of a string literal at other positions. -/
def StringBody.relocate : StringBody → StringBody
  | closed value rest => closed value (rest.map (Cell.relocate f))
  | unclosed rest => unclosed (rest.map (Cell.relocate f))

/-- A run of digits at other positions. -/
def DigitRun.relocate (r : DigitRun) : DigitRun := { r with rest := r.rest.map (Cell.relocate f) }

variable {f}

@[simp] theorem Cell.relocate_char (c : Cell) : (c.relocate f).char = c.char := rfl

@[simp] theorem Cell.relocate_position (c : Cell) : (c.relocate f).position = f c.position := rfl

@[simp] theorem Cell.relocate_isBreak (c : Cell) : (c.relocate f).isBreak = c.isBreak := rfl

@[simp] theorem CellSource.relocate_cells (s : CellSource) :
    (s.relocate f).cells = s.cells.map (Cell.relocate f) := rfl

theorem CellSource.relocate_position (s : CellSource) : (s.relocate f).position = f s.position := by
  obtain ⟨cells, finish⟩ := s
  cases cells <;> rfl

/-! ### What is read from cells -/

theorem Gap.skip_relocate (state : GapState) (firstBreak : Option Position) (cells : List Cell) :
    skip (state.relocate f) (firstBreak.map f) (cells.map (Cell.relocate f)) =
      (skip state firstBreak cells).relocate f := by
  have hcross (firstBreak : Option Position) (p : Position) :
      (firstBreak.map f <|> some (f p)) = (firstBreak <|> some p).map f := by
    cases firstBreak <;> rfl
  fun_induction skip state firstBreak cells with
  | case1 | case9 | case12 => rfl
  | case2 _ _ _ hblank ih =>
    rw [List.map_cons, skip.eq_def]
    simp only [GapState.relocate, Cell.relocate_char, hblank, if_true]
    exact ih
  -- a line break is remembered if it is the first one
  | case3 _ _ _ hblank hbreak ih =>
    rw [List.map_cons, skip.eq_def]
    simp only [GapState.relocate, Cell.relocate_char, Cell.relocate_isBreak, hblank, hbreak,
      if_true, Bool.false_eq_true, if_false, Cell.relocate_position, hcross]
    exact ih
  | case10 _ _ _ hbreak ih | case13 _ _ _ _ _ hbreak ih =>
    rw [List.map_cons, skip.eq_def]
    simp only [GapState.relocate, Cell.relocate_isBreak, hbreak, if_true, Cell.relocate_position,
      hcross]
    exact ih
  -- a slash begins a comment or ends the gap
  | case4 _ _ hblank hbreak hslash =>
    rw [List.map_cons, skip.eq_def]
    simp only [GapState.relocate, Cell.relocate_char, Cell.relocate_isBreak, hbreak, hslash,
      if_true, Bool.false_eq_true, if_false, if_neg (hslash ▸ hblank)]
    rfl
  | case5 _ _ hblank hbreak hslash d ds hd ih =>
    rw [List.map_cons, skip.eq_def]
    simp only [GapState.relocate, Cell.relocate_char, Cell.relocate_isBreak, hbreak, hslash,
      if_true, Bool.false_eq_true, if_false, List.map_cons, hd, if_neg (hslash ▸ hblank)]
    exact ih
  | case6 _ _ hblank hbreak hslash d ds hd hd' ih =>
    rw [List.map_cons, skip.eq_def]
    simp only [GapState.relocate, Cell.relocate_char, Cell.relocate_isBreak, hbreak, hslash,
      if_true, Bool.false_eq_true, if_false, List.map_cons, hd', if_neg (hslash ▸ hblank)]
    rw [if_neg (hd' ▸ hd)]
    exact ih
  | case7 _ _ hblank hbreak hslash d ds hd hd' =>
    rw [List.map_cons, skip.eq_def]
    simp only [GapState.relocate, Cell.relocate_char, Cell.relocate_isBreak, hbreak, hslash,
      if_true, Bool.false_eq_true, if_false, List.map_cons, hd, hd', if_neg (hslash ▸ hblank)]
    rfl
  | case8 _ _ _ hblank hbreak hslash =>
    rw [List.map_cons, skip.eq_def]
    simp only [GapState.relocate, Cell.relocate_char, Cell.relocate_isBreak, hblank, hbreak,
      hslash, Bool.false_eq_true, if_false]
    rfl
  -- inside a comment
  | case11 _ _ _ hbreak ih =>
    rw [List.map_cons, skip.eq_def]
    simp only [GapState.relocate, Cell.relocate_isBreak, hbreak, Bool.false_eq_true, if_false]
    exact ih
  | case14 _ _ _ _ _ hbreak hstar ih | case15 _ _ _ _ _ hbreak hstar ih =>
    rw [List.map_cons, skip.eq_def]
    simp only [GapState.relocate, Cell.relocate_isBreak, Cell.relocate_char, hbreak, hstar,
      if_true, Bool.false_eq_true, if_false]
    exact ih

theorem StringBody.read_relocate (quote : Char) (cells : List Cell) :
    read quote (cells.map (Cell.relocate f)) = (read quote cells).relocate f := by
  have hcons (c : Char) (b : StringBody) : (b.relocate f).cons c = (b.cons c).relocate f := by
    cases b <;> rfl
  fun_induction read quote cells with
  | case1 => rfl
  | case2 c cs hbreak =>
    rw [List.map_cons, read.eq_def]
    simp only [Cell.relocate_isBreak, hbreak, if_true]
    rfl
  | case3 c cs hbreak hquote =>
    rw [List.map_cons, read.eq_def]
    simp only [Cell.relocate_isBreak, Cell.relocate_char, hbreak, hquote, if_true,
      Bool.false_eq_true, if_false]
    rfl
  -- a backslash takes the next character with it
  | case4 c hbreak hquote hslash =>
    rw [List.map_cons, read.eq_def]
    simp only [Cell.relocate_isBreak, Cell.relocate_char, hbreak, hslash, if_neg (hslash ▸ hquote),
      if_true, Bool.false_eq_true, if_false]
    rfl
  | case5 c hbreak hquote hslash d ds hd =>
    rw [List.map_cons, read.eq_def]
    simp only [Cell.relocate_isBreak, Cell.relocate_char, hbreak, hslash, if_neg (hslash ▸ hquote),
      List.map_cons, hd, if_true, Bool.false_eq_true, if_false]
    rfl
  | case6 c hbreak hquote hslash d ds hd ih =>
    rw [List.map_cons, read.eq_def]
    simp only [Cell.relocate_isBreak, Cell.relocate_char, hbreak, hslash, if_neg (hslash ▸ hquote),
      List.map_cons, hd, if_true, Bool.false_eq_true, if_false, ih, hcons]
  | case7 c cs hbreak hquote hslash ih =>
    rw [List.map_cons, read.eq_def]
    simp only [Cell.relocate_isBreak, Cell.relocate_char, hbreak, hquote, hslash,
      Bool.false_eq_true, if_false, ih, hcons]

theorem DigitRun.read_relocate (b : NumberBase) (leading : Bool) (cells : List Cell) :
    read b leading (cells.map (Cell.relocate f)) = (read b leading cells).relocate f := by
  have hstarts (cells : List Cell) :
      startsWithDigit b (cells.map (Cell.relocate f)) = startsWithDigit b cells := by
    cases cells <;> rfl
  fun_induction read b leading cells with
  | case1 => rfl
  | case2 leading c cs hc ih =>
    rw [List.map_cons, read, Cell.relocate_char, if_pos hc, ih]
    rfl
  | case3 leading c cs hc hseparator hnext ih =>
    rw [List.map_cons, read, Cell.relocate_char, if_neg hc, if_pos hseparator, hstarts,
      if_pos hnext, ih]
  | case4 leading c cs hc hseparator hnext =>
    rw [List.map_cons, read, Cell.relocate_char, if_neg hc, if_pos hseparator, hstarts,
      if_neg hnext]
    rfl
  | case5 leading c cs hc hseparator =>
    rw [List.map_cons, read, Cell.relocate_char, if_neg hc, if_neg hseparator]
    rfl

/-! ### Scans -/

namespace CellScan

variable {α β γ δ : Type}

/-- At other positions, `q` takes the same cells as `p` and returns the result that belongs to
that of `p`, or fails in the same way. -/
def Relocates (f : Position → Position) (g : α → β) (p : CellScan α) (q : CellScan β) : Prop :=
  ∀ s : CellSource, q (s.relocate f) = match p s with
    | .ok a s' => .ok (g a) (s'.relocate f)
    | .error e s' => .error (e.relocate f) (s'.relocate f)

namespace Relocates

variable {g : α → β} {h : γ → δ} {p : CellScan α} {q : CellScan β}

theorem pure {a : α} {b : β} (hb : b = g a) : Relocates f g (Pure.pure a) (Pure.pure b) := by
  subst hb
  exact fun _ => rfl

theorem bind {k : α → CellScan γ} {k' : β → CellScan δ} (hp : Relocates f g p q)
    (hk : ∀ a, Relocates f h (k a) (k' (g a))) : Relocates f h (p >>= k) (q >>= k') := by
  intro s
  have hp := hp s
  simp only [Bind.bind, EStateM.bind, hp]
  cases p s with
  | ok a s' => exact hk a s'
  | error e s' => rfl

/-- A scan may depend on the source it starts from. -/
theorem get_bind {k : CellSource → CellScan γ} {k' : CellSource → CellScan δ}
    (hk : ∀ s : CellSource, Relocates f h (k s) (k' (s.relocate f))) :
    Relocates f h (get >>= k) (get >>= k') :=
  fun s => hk s s

theorem failHere (fault : LexFault) : Relocates f g (failHere fault) (failHere fault) := by
  intro s
  simp only [CellScan.failHere, CellSource.relocate_position]
  rfl

theorem failAt (position : Position) (fault : LexFault) :
    Relocates f g (failAt position fault) (failAt (f position) fault) :=
  fun _ => rfl

theorem setCells_bind {cells : List Cell} {k : Unit → CellScan γ} {k' : Unit → CellScan δ}
    (hk : Relocates f h (k ()) (k' ())) :
    Relocates f h (setCells cells >>= k) (setCells (cells.map (Cell.relocate f)) >>= k') :=
  fun s => hk { s with cells }

theorem ahead_bind {n : Nat} {k : List Char → CellScan γ} {k' : List Char → CellScan δ}
    (hk : ∀ cs, Relocates f h (k cs) (k' cs)) : Relocates f h (ahead n >>= k) (ahead n >>= k') := by
  intro s
  have hahead : ((s.relocate f).cells.take n).map Cell.char = (s.cells.take n).map Cell.char := by
    rw [CellSource.relocate_cells, ← List.map_take, List.map_map]
    rfl
  simp only [Bind.bind, EStateM.bind, ahead, hahead]
  exact hk _ s

theorem skip_bind {n : Nat} {k : Unit → CellScan γ} {k' : Unit → CellScan δ}
    (hk : Relocates f h (k ()) (k' ())) : Relocates f h (skip n >>= k) (skip n >>= k') := by
  intro s
  simp only [Bind.bind, EStateM.bind, skip, CellSource.relocate_cells, ← List.map_drop]
  exact hk { s with cells := s.cells.drop n }

theorem takeIf_bind {c : Char → Bool} {k : List Char → CellScan γ} {k' : List Char → CellScan δ}
    (hk : ∀ cs, Relocates f h (k cs) (k' cs)) :
    Relocates f h (takeIf c >>= k) (takeIf c >>= k') := by
  have htake : Relocates f id (takeIf c) (takeIf c) := by
    rintro ⟨cells, finish⟩
    cases cells with
    | nil => rfl
    | cons d cs =>
      unfold takeIf
      by_cases hc : c d.char
      · simp only [CellSource.relocate_cells, List.map_cons, Cell.relocate_char, hc, if_true]
        rfl
      · simp only [CellSource.relocate_cells, List.map_cons, Cell.relocate_char, hc,
          Bool.false_eq_true, if_false]
        rfl
  exact htake.bind hk

theorem takeWhile_bind {c : Char → Bool} {k : List Char → CellScan γ} {k' : List Char → CellScan δ}
    (hk : ∀ cs, Relocates f h (k cs) (k' cs)) :
    Relocates f h (takeWhile c >>= k) (takeWhile c >>= k') := by
  have htake : Relocates f id (takeWhile c) (takeWhile c) := by
    intro s
    simp only [takeWhile, CellSource.relocate_cells, List.takeWhile_map, List.dropWhile_map,
      List.map_map]
    rfl
  exact htake.bind hk

theorem ite {p' : CellScan α} {q' : CellScan β} {P : Prop} [Decidable P] (hp : P → Relocates f g p q)
    (hp' : ¬P → Relocates f g p' q') :
    Relocates f g (if P then p else p') (if P then q else q') := by
  split
  · exact hp ‹_›
  · exact hp' ‹_›

end Relocates

theorem relocates_digits (b : NumberBase) (leading : Bool) :
    Relocates f id (digits b leading) (digits b leading) := by
  refine Relocates.get_bind fun s => ?_
  rw [CellSource.relocate_cells, DigitRun.read_relocate]
  refine Relocates.setCells_bind (Relocates.ite (fun _ => ?_) fun _ => ?_)
  · exact Relocates.failHere _
  · exact Relocates.pure rfl

theorem relocates_endNumber (b : NumberBase) : Relocates f id (endNumber b) (endNumber b) := by
  refine Relocates.ahead_bind fun cs => ?_
  cases cs with
  | nil => exact Relocates.pure rfl
  | cons c cs => exact Relocates.ite (fun _ => Relocates.failHere _) fun _ => Relocates.pure rfl

theorem relocates_markedNumber (b : NumberBase) (start : Position) :
    Relocates f id (markedNumber b start) (markedNumber b (f start)) := by
  refine (relocates_digits b true).bind fun ds => Relocates.ite (fun _ => ?_) fun _ => ?_
  -- no digit follows the mark, so scanning fails
  · have hfail : Relocates f (id : NumberLiteral → NumberLiteral)
        (do failAt start (.missingDigits b); endNumber b; return ⟨String.ofList ds, b⟩)
        (do failAt (f start) (.missingDigits b); endNumber b; return ⟨String.ofList ds, b⟩) :=
      (Relocates.failAt (g := (id : Unit → Unit)) _ _).bind fun _ =>
        (relocates_endNumber b).bind fun _ => Relocates.pure rfl
    refine Relocates.ahead_bind fun cs => ?_
    cases cs with
    | nil => exact hfail
    | cons c cs =>
      refine Relocates.ite (fun _ => ?_) fun _ => hfail
      exact (Relocates.failHere (g := (id : Unit → Unit)) _).bind fun _ => hfail
  · exact (relocates_endNumber b).bind fun _ => Relocates.pure rfl

theorem relocates_fraction : Relocates f id fraction fraction := by
  refine Relocates.ahead_bind fun cs => ?_
  split
  · refine Relocates.ite (fun _ => Relocates.skip_bind ?_) fun _ => Relocates.pure rfl
    exact (relocates_digits _ _).bind fun _ => Relocates.pure rfl
  · exact Relocates.pure rfl

theorem relocates_exponent : Relocates f id exponent exponent := by
  refine Relocates.takeIf_bind fun mark => Relocates.ite (fun _ => Relocates.pure rfl) fun _ => ?_
  refine Relocates.takeIf_bind fun sign => Relocates.ahead_bind fun cs => ?_
  have hdigits : Relocates f id (do return mark ++ sign ++ (← digits .decimal false))
      (do return mark ++ sign ++ (← digits .decimal false)) :=
    (relocates_digits .decimal false).bind fun ds => Relocates.pure rfl
  have hfail : Relocates f id
      (do failHere .missingExponent; return mark ++ sign ++ (← digits .decimal false))
      (do failHere .missingExponent; return mark ++ sign ++ (← digits .decimal false)) :=
    (Relocates.failHere (g := (id : Unit → Unit)) _).bind fun _ => hdigits
  split
  · exact Relocates.ite (fun _ => hfail) fun _ => hdigits
  · exact hfail

theorem relocates_decimalNumber (first : Char) :
    Relocates f id (decimalNumber first) (decimalNumber first) := by
  refine (relocates_digits _ _).bind fun whole => relocates_fraction.bind fun fraction => ?_
  refine relocates_exponent.bind fun exponent => Relocates.takeIf_bind fun imaginary => ?_
  exact (relocates_endNumber _).bind fun _ => Relocates.pure rfl

theorem relocates_number (first : Char) (start : Position) :
    Relocates f id (number first start) (number first (f start)) := by
  refine Relocates.ahead_bind fun cs => ?_
  split
  · exact Relocates.skip_bind (relocates_markedNumber _ _)
  · exact relocates_decimalNumber _

theorem relocates_stringLiteral (quote : Char) (start : Position) :
    Relocates f id (stringLiteral quote start) (stringLiteral quote (f start)) := by
  refine Relocates.get_bind fun s => ?_
  rw [CellSource.relocate_cells, StringBody.read_relocate]
  cases StringBody.read quote s.cells with
  | closed value rest => exact Relocates.setCells_bind (Relocates.pure rfl)
  | unclosed rest => exact Relocates.setCells_bind (Relocates.failAt _ _)

theorem relocates_lexeme (c : Char) (start : Position) :
    Relocates f id (lexeme c start) (lexeme c (f start)) := by
  refine Relocates.ahead_bind fun cs => ?_
  split
  · exact Relocates.skip_bind (Relocates.pure rfl)
  · refine Relocates.ite (fun _ => ?_) fun _ => Relocates.skip_bind ?_
    · exact Relocates.takeWhile_bind fun w => Relocates.pure rfl
    refine Relocates.ite (fun _ => ?_) fun _ => Relocates.ite (fun _ => ?_) fun _ => ?_
    · exact (relocates_stringLiteral _ _).bind fun _ => Relocates.pure rfl
    · exact (relocates_number _ _).bind fun _ => Relocates.pure rfl
    · exact Relocates.failAt _ _

theorem relocates_gap : Relocates f (Option.map f) gap gap := by
  refine Relocates.get_bind fun s => ?_
  have hskip : Gap.leading (s.relocate f).cells = (Gap.leading s.cells).relocate f :=
    Gap.skip_relocate .plain none s.cells
  rw [hskip]
  refine Relocates.setCells_bind ?_
  simp only [Gap.relocate]
  cases (Gap.leading s.cells).openComment with
  | some start => exact Relocates.failAt _ _
  | none => exact Relocates.pure rfl

/-- **A token is scanned alike at other positions.** -/
theorem relocates_token : Relocates f (PlacedToken.relocate f) token token := by
  refine relocates_gap.bind fun firstBreak => ?_
  cases firstBreak with
  | some position => exact Relocates.pure rfl
  | none =>
    refine Relocates.get_bind fun s => ?_
    obtain ⟨cells, finish⟩ := s
    cases cells with
    | nil => exact Relocates.pure rfl
    | cons c cs => exact (relocates_lexeme c.char c.position).bind fun _ => Relocates.pure rfl

end CellScan

/-! ### Tokens -/

namespace CellSource

/-- Tokens are read alike at other positions. -/
theorem takeUpTo_relocate (n : Nat) (s : CellSource) :
    takeUpTo n (s.relocate f) =
      ((takeUpTo n s).map (List.map (PlacedToken.relocate f))).mapError
        (LexError.relocate f) := by
  induction n generalizing s with
  | zero => rfl
  | succ n ih =>
    have htoken := CellScan.relocates_token (f := f) s
    rw [takeUpTo, takeUpTo]
    simp only [htoken]
    cases CellScan.token s with
    | error e s' => rfl
    | ok t s' =>
      simp only [ih]
      by_cases hend : t.token = .endOfInput
      · simp only [PlacedToken.relocate, hend, if_true]
        simp only [← hend]
        rfl
      · simp only [PlacedToken.relocate, hend, if_false]
        cases takeUpTo n s' <;> rfl

end CellSource

end DrakeSyntax
