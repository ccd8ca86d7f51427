import DrakeSyntax.Proofs.Lexeme

/-!
# Where scans stop

A scan never makes up a position: those it reports, in a result or in an error, and those of the
source it leaves are positions of the source it was given. `CellScan.Keeps P Q p` says this with a
property `P` of positions: if all positions of a source satisfy `P`, so do those that `p` reports
in an error or leaves, and its result satisfies `Q`. Nor does a scan complain about a line break
(`LexFault.Shown`).

`CellScan.keeps_token` puts the scans of a token together.
-/

namespace DrakeSyntax

variable {α β : Type} {P : Position → Prop} {Q : α → Prop} {R : β → Prop}

theorem CellSource.Within.position {s : CellSource} (h : s.Within P) : P s.position := by
  obtain ⟨cells, finish⟩ := s
  cases cells with
  | nil => exact h.2
  | cons c cs => exact h.1 c (List.mem_cons_self ..)

/-- Cells that are taken away leave a source with no new position. -/
theorem CellSource.Within.suffix {s : CellSource} {cells : List Cell} (h : s.Within P)
    (hcells : cells <:+ s.cells) : CellSource.Within P { s with cells } :=
  ⟨fun c hc => h.1 c (hcells.subset hc), h.2⟩

/-- The fault does not complain about a line break. -/
def LexFault.Shown (fault : LexFault) : Prop := fault.character? ≠ some '\n'

/-- A character that satisfies what a line break does not satisfy is no digit. -/
theorem LexFault.shown_invalidDigit {q : Char → Bool} (hq : q '\n' = false) {c : Char} (hc : q c)
    (b : NumberBase) : (invalidDigit c b).Shown := by
  rintro ⟨rfl⟩
  rw [hq] at hc
  cases hc

namespace CellScan

/-- From a source within `P` the scan leaves one within `P`; it fails at a position in `P` or
returns a result in `Q`. -/
def Keeps (P : Position → Prop) (Q : α → Prop) (p : CellScan α) : Prop :=
  ∀ s : CellSource, s.Within P → match p s with
    | .ok a s' => Q a ∧ s'.Within P
    | .error e s' => (P e.position ∧ e.fault.Shown) ∧ s'.Within P

namespace Keeps

theorem pure {a : α} (h : Q a) : Keeps P Q (Pure.pure a) := fun _ hs => ⟨h, hs⟩

theorem bind {p : CellScan α} {f : α → CellScan β} (hp : Keeps P Q p)
    (hf : ∀ a, Q a → Keeps P R (f a)) :
    Keeps P R (p >>= f) := by
  intro s hs
  have hp := hp s hs
  simp only [Bind.bind, EStateM.bind]
  cases h : p s with
  | ok a s' =>
    rw [h] at hp
    exact hf a hp.1 s' hp.2
  | error e s' =>
    rw [h] at hp
    exact hp

/-- A scan may depend on the source it starts from. -/
theorem get_bind {f : CellSource → CellScan β} (hf : ∀ s : CellSource, s.Within P → Keeps P R (f s)) :
    Keeps P R (get >>= f) :=
  fun s hs => hf s hs s hs

theorem failHere {fault : LexFault} (h : fault.Shown) : Keeps P Q (failHere fault) :=
  fun _ hs => ⟨⟨hs.position, h⟩, hs⟩

theorem failAt {position : Position} {fault : LexFault} (hposition : P position)
    (h : fault.Shown) : Keeps P Q (failAt position fault) :=
  fun _ hs => ⟨⟨hposition, h⟩, hs⟩

/-- Only cells of the source are put back. -/
theorem setCells_bind {s : CellSource} {cells : List Cell} {f : Unit → CellScan β} (hs : s.Within P)
    (hcells : cells <:+ s.cells) (hf : Keeps P R (f ())) : Keeps P R (setCells cells >>= f) :=
  fun _ ht => hf _ ⟨(hs.suffix hcells).1, ht.2⟩

theorem ahead_bind {n : Nat} {f : List Char → CellScan β} (hf : ∀ cs, Keeps P R (f cs)) :
    Keeps P R (ahead n >>= f) :=
  fun s hs => hf _ s hs

theorem skip_bind {n : Nat} {f : Unit → CellScan β} (hf : Keeps P R (f ())) :
    Keeps P R (skip n >>= f) :=
  fun s hs => hf _ (hs.suffix (List.drop_suffix n s.cells))

theorem takeIf_bind {q : Char → Bool} {f : List Char → CellScan β} (hf : ∀ cs, Keeps P R (f cs)) :
    Keeps P R (takeIf q >>= f) := by
  refine bind (Q := fun _ => True) ?_ fun cs _ => hf cs
  rintro ⟨cells, finish⟩ hs
  cases cells with
  | nil => exact ⟨trivial, hs⟩
  | cons c cs =>
    unfold takeIf
    by_cases hc : q c.char
    · simp only [hc, if_true]
      exact ⟨trivial, hs.suffix (List.suffix_cons c cs)⟩
    · simp only [hc, Bool.false_eq_true, if_false]
      exact ⟨trivial, hs⟩

theorem takeWhile_bind {q : Char → Bool} {f : List Char → CellScan β} (hf : ∀ cs, Keeps P R (f cs)) :
    Keeps P R (takeWhile q >>= f) :=
  fun _ hs => hf _ _ (hs.suffix (List.dropWhile_suffix fun c : Cell => q c.char))

end Keeps

/-! ### The scans of tokens -/

theorem keeps_digits (b : NumberBase) (leading : Bool) :
    Keeps P (fun _ => True) (digits b leading) := by
  unfold digits
  refine Keeps.get_bind fun s hs => ?_
  obtain ⟨taken, htaken, -⟩ := DigitRun.read_eq_append b leading s.cells
  refine Keeps.setCells_bind hs ⟨taken, htaken.symm⟩ ?_
  split
  · exact Keeps.failHere nofun
  · exact Keeps.pure trivial

theorem keeps_endNumber (b : NumberBase) : Keeps P (fun _ => True) (endNumber b) := by
  unfold endNumber
  refine Keeps.ahead_bind fun cs => ?_
  split
  · split
    · next hc =>
      exact Keeps.failHere
        (LexFault.shown_invalidDigit (q := fun c => Text.isAlphanumeric c || c == '_') rfl hc b)
    · exact Keeps.pure trivial
  · exact Keeps.pure trivial

theorem keeps_markedNumber (b : NumberBase) {start : Position} (hstart : P start) :
    Keeps P (fun _ => True) (markedNumber b start) := by
  unfold markedNumber
  refine (keeps_digits b true).bind fun ds _ => ?_
  split
  · refine Keeps.ahead_bind fun cs => ?_
    split
    · split
      · next hc => exact Keeps.failHere (LexFault.shown_invalidDigit rfl hc b)
      · exact Keeps.failAt hstart nofun
    · exact Keeps.failAt hstart nofun
  · exact (keeps_endNumber b).bind fun _ _ => Keeps.pure trivial

theorem keeps_fraction : Keeps P (fun _ => True) fraction := by
  unfold fraction
  refine Keeps.ahead_bind fun cs => ?_
  split
  · split
    · exact Keeps.skip_bind ((keeps_digits _ _).bind fun _ _ => Keeps.pure trivial)
    · exact Keeps.pure trivial
  · exact Keeps.pure trivial

theorem keeps_exponent : Keeps P (fun _ => True) exponent := by
  unfold exponent
  refine Keeps.takeIf_bind fun mark => ?_
  split
  · exact Keeps.pure trivial
  · refine Keeps.takeIf_bind fun sign => Keeps.ahead_bind fun cs => ?_
    have hdigits := (keeps_digits (P := P) .decimal false).bind
      fun ds _ => Keeps.pure (a := mark ++ sign ++ ds) (Q := fun _ => True) trivial
    have hmissing : LexFault.Shown .missingExponent := nofun
    split
    · split
      · exact (Keeps.failHere hmissing).bind (Q := fun _ => True) fun _ _ => hdigits
      · exact hdigits
    · exact (Keeps.failHere hmissing).bind (Q := fun _ => True) fun _ _ => hdigits

theorem keeps_decimalNumber (first : Char) : Keeps P (fun _ => True) (decimalNumber first) := by
  unfold decimalNumber
  refine (keeps_digits _ _).bind fun whole _ => keeps_fraction.bind fun fraction _ => ?_
  refine keeps_exponent.bind fun exponent _ => Keeps.takeIf_bind fun imaginary => ?_
  exact (keeps_endNumber _).bind fun _ _ => Keeps.pure trivial

theorem keeps_number (first : Char) {start : Position} (hstart : P start) :
    Keeps P (fun _ => True) (number first start) := by
  unfold number
  refine Keeps.ahead_bind fun cs => ?_
  split
  · exact Keeps.skip_bind (keeps_markedNumber _ hstart)
  · exact keeps_decimalNumber _

theorem keeps_stringLiteral (quote : Char) {start : Position} (hstart : P start) :
    Keeps P (fun _ => True) (stringLiteral quote start) := by
  unfold stringLiteral
  refine Keeps.get_bind fun s hs => ?_
  have hbody := StringBody.of_read quote s.cells
  split
  · next v rest h =>
    rw [h] at hbody
    obtain ⟨taken, c, htaken, -⟩ := hbody
    refine Keeps.setCells_bind hs ⟨taken ++ [c], ?_⟩ (Keeps.pure trivial)
    simp [htaken]
  · next rest h =>
    rw [h] at hbody
    exact Keeps.setCells_bind hs hbody (Keeps.failAt hstart nofun)

theorem keeps_lexeme {c : Char} (hc : c ≠ '\n') {start : Position} (hstart : P start) :
    Keeps P (fun _ => True) (lexeme c start) := by
  unfold lexeme
  refine Keeps.ahead_bind fun cs => ?_
  split
  · exact Keeps.skip_bind (Keeps.pure trivial)
  · split
    · exact Keeps.takeWhile_bind fun w => Keeps.pure trivial
    · refine Keeps.skip_bind ?_
      split
      · exact (keeps_stringLiteral _ hstart).bind fun _ _ => Keeps.pure trivial
      · split
        · exact (keeps_number _ hstart).bind fun _ _ => Keeps.pure trivial
        · refine Keeps.failAt hstart ?_
          rintro ⟨rfl⟩
          exact hc rfl

end CellScan

/-! ### Gaps -/

theorem Gap.skip_suffix (state : GapState) (firstBreak : Option Position) (cells : List Cell) :
    (skip state firstBreak cells).rest <:+ cells := by
  fun_induction skip state firstBreak cells with
  | case1 | case4 | case7 | case8 | case9 | case12 => exact List.suffix_refl _
  | case2 _ _ _ _ ih | case3 _ _ _ _ _ ih | case10 _ _ _ _ ih | case11 _ _ _ _ ih
    | case13 _ _ _ _ _ _ ih | case14 _ _ _ _ _ _ _ ih | case15 _ _ _ _ _ _ _ ih =>
    exact ih.trans (List.suffix_cons _ _)
  | case5 _ _ _ _ _ _ _ _ ih | case6 _ _ _ _ _ _ _ _ _ ih =>
    exact ih.trans ((List.suffix_cons _ _).trans (List.suffix_cons _ _))

/-- Behind a gap stands no line break. -/
theorem Gap.skip_head (state : GapState) (firstBreak : Option Position) (cells : List Cell) :
    ∀ c ∈ (skip state firstBreak cells).rest.head?, c.char ≠ '\n' := by
  fun_induction skip state firstBreak cells with
  | case1 | case9 | case12 => rintro c ⟨⟩
  | case4 _ _ _ hbreak | case7 _ _ _ hbreak | case8 _ _ _ _ hbreak =>
    rintro c ⟨⟩
    simpa [Cell.isBreak] using hbreak
  | case2 _ _ _ _ ih | case3 _ _ _ _ _ ih | case5 _ _ _ _ _ _ _ _ ih
    | case6 _ _ _ _ _ _ _ _ _ ih | case10 _ _ _ _ ih | case11 _ _ _ _ ih
    | case13 _ _ _ _ _ _ ih | case14 _ _ _ _ _ _ _ ih | case15 _ _ _ _ _ _ _ ih => exact ih

/-- The position that the state of a gap holds satisfies `P`. -/
def GapState.Within (P : Position → Prop) : GapState → Prop
  | plain | lineComment => True
  | blockComment start _ => P start

/-- A gap remembers only places of its cells, where line breaks are and comments begin. -/
theorem Gap.skip_within (state : GapState) (firstBreak : Option Position) {cells : List Cell}
    (hcells : ∀ c ∈ cells, P c.position) (hbreak : ∀ p ∈ firstBreak, P p)
    (hstate : state.Within P) :
    (∀ p ∈ (skip state firstBreak cells).firstBreak, P p) ∧
      ∀ p ∈ (skip state firstBreak cells).openComment, P p := by
  have hcross {firstBreak : Option Position} {c : Cell} (hbreak : ∀ p ∈ firstBreak, P p)
      (hc : P c.position) : ∀ p ∈ (firstBreak <|> some c.position), P p := by
    cases firstBreak with
    | none => simpa using hc
    | some p => simpa using hbreak
  fun_induction skip state firstBreak cells with
  | case1 | case4 | case7 | case8 | case9 =>
    refine ⟨hbreak, ?_⟩
    intro p hp
    cases hp
  | case12 start =>
    refine ⟨hbreak, ?_⟩
    intro p hp
    cases hp
    exact hstate
  | case2 _ _ _ _ ih | case11 _ _ _ _ ih | case15 _ _ _ _ _ _ _ ih =>
    rw [List.forall_mem_cons] at hcells
    exact ih hcells.2 hbreak hstate
  | case14 _ _ _ _ _ _ _ ih =>
    rw [List.forall_mem_cons] at hcells
    exact ih hcells.2 hbreak trivial
  | case3 _ _ _ _ _ ih | case10 _ _ _ _ ih | case13 _ _ _ _ _ _ ih =>
    rw [List.forall_mem_cons] at hcells
    exact ih hcells.2 (hcross hbreak hcells.1) hstate
  | case5 _ _ _ _ _ _ _ _ ih =>
    rw [List.forall_mem_cons, List.forall_mem_cons] at hcells
    exact ih hcells.2.2 hbreak trivial
  | case6 _ _ _ _ _ _ _ _ _ ih =>
    rw [List.forall_mem_cons, List.forall_mem_cons] at hcells
    exact ih hcells.2.2 hbreak hcells.1

namespace CellScan

theorem keeps_gap : Keeps P (fun firstBreak => ∀ p ∈ firstBreak, P p) gap := by
  unfold gap
  refine Keeps.get_bind fun s hs => ?_
  have hplaces := Gap.skip_within .plain none hs.1 (by simp) trivial
  refine Keeps.setCells_bind hs (Gap.skip_suffix ..) ?_
  split
  · next start hopen => exact Keeps.failAt (hplaces.2 start hopen) nofun
  · exact Keeps.pure hplaces.1

theorem gap_run (s : CellSource) : gap s = match (Gap.leading s.cells).openComment with
    | some start => .error ⟨.unterminatedComment, start⟩ ⟨(Gap.leading s.cells).rest, s.finish⟩
    | none => .ok (Gap.leading s.cells).firstBreak ⟨(Gap.leading s.cells).rest, s.finish⟩ := by
  have hrun : gap s = (match (Gap.leading s.cells).openComment with
      | some start => failAt start .unterminatedComment
      | none => Pure.pure (Gap.leading s.cells).firstBreak)
        ⟨(Gap.leading s.cells).rest, s.finish⟩ := rfl
  rw [hrun]
  cases (Gap.leading s.cells).openComment <;> rfl

theorem head_of_gap {s s' : CellSource} {firstBreak : Option Position}
    (h : gap s = .ok firstBreak s') : ∀ c ∈ s'.cells.head?, c.char ≠ '\n' := by
  rw [gap_run] at h
  cases hopen : (Gap.leading s.cells).openComment with
  | some start =>
    rw [hopen] at h
    cases h
  | none =>
    rw [hopen] at h
    cases h
    exact Gap.skip_head .plain none s.cells

/-- **A scanned token stands at a position of the source, and so does an error.** -/
theorem keeps_token : Keeps P (fun t => P t.position) token := by
  intro s hs
  have hgap := keeps_gap s hs
  unfold token
  simp only [Bind.bind, EStateM.bind]
  cases hrun : gap s with
  | error e s' =>
    rw [hrun] at hgap
    exact hgap
  | ok firstBreak s' =>
    rw [hrun] at hgap
    obtain ⟨hbreak, hs'⟩ := hgap
    cases firstBreak with
    | some position => exact ⟨hbreak position rfl, hs'⟩
    | none =>
      have hhead := head_of_gap hrun
      obtain ⟨cells, finish⟩ := s'
      cases cells with
      | nil => exact ⟨hs'.2, hs'⟩
      | cons c cs =>
        have hc : P c.position := hs'.1 c (List.mem_cons_self ..)
        have hlexeme : Keeps P (fun t => P t.position)
            (do return (⟨← lexeme c.char c.position, c.position⟩ : PlacedToken)) :=
          (keeps_lexeme (hhead c rfl) hc).bind fun _ _ => Keeps.pure hc
        exact hlexeme _ hs'

end CellScan

end DrakeSyntax
