import DrakeSyntax.Proofs.Layout.Gap
import DrakeSyntax.Proofs.Layout.Scan
import DrakeSyntax.Proofs.Place.Scan

/-!
# Every token and every error takes a cell

A scan of cells only takes cells from the front of its source, whether it fails or not, and neither
a token nor an error is scanned without taking one. So what is left of a source is read token by
token, and the bound that reading has does not matter.

* `CellScan.Drops`: what a scan leaves stands behind the cells it takes.
* `CellScan.token_cases`: one token, an error, or the end.
* `CellSource.tokens_eq`: the tokens that are left are the next one and those behind it.
-/

namespace DrakeSyntax

variable {α β : Type}

namespace CellSource

variable {s s' : CellSource}

/-- The source is what is left of the other one behind at least one cell. -/
def Past (s' s : CellSource) : Prop :=
  s'.finish = s.finish ∧ s'.cells <:+ s.cells ∧ s'.cells.length < s.cells.length

theorem Past.mono {s₁ : CellSource} (h : s'.Past s₁) (hfinish : s₁.finish = s.finish)
    (hcells : s₁.cells <:+ s.cells) : s'.Past s :=
  ⟨h.1.trans hfinish, h.2.1.trans hcells, Nat.lt_of_lt_of_le h.2.2 hcells.length_le⟩

end CellSource

namespace CellScan

/-- What the scan leaves, whether it fails or not. -/
def left (p : CellScan α) (s : CellSource) : CellSource :=
  match p s with
  | .ok _ s' | .error _ s' => s'

/-- From the source, the scan takes cells at the front, or none. -/
def DropsAt (s : CellSource) (p : CellScan α) : Prop :=
  (p.left s).finish = s.finish ∧ (p.left s).cells <:+ s.cells

/-- The scan takes cells at the front of any source, or none. -/
def Drops (p : CellScan α) : Prop := ∀ s, DropsAt s p

theorem left_of_ok {p : CellScan α} {s s' : CellSource} {a : α} (h : p s = .ok a s') :
    p.left s = s' := by
  unfold left
  rw [h]

theorem left_of_error {p : CellScan α} {s s' : CellSource} {e : LexError} (h : p s = .error e s') :
    p.left s = s' := by
  unfold left
  rw [h]

theorem bind_of_error {p : CellScan α} {f : α → CellScan β} {e : LexError} {s s' : CellSource}
    (h : p s = .error e s') : (p >>= f) s = .error e s' := by
  simp only [Bind.bind, EStateM.bind, h]

theorem left_bind {p : CellScan α} {f : α → CellScan β} {s s' : CellSource} {a : α}
    (h : p s = .ok a s') :
    (p >>= f).left s = (f a).left s' := by
  unfold left
  rw [bind_of_ok h]

namespace Drops

theorem pure {a : α} : Drops (Pure.pure a) := fun s => ⟨rfl, List.suffix_refl s.cells⟩

theorem failHere {fault : LexFault} : Drops (failHere fault : CellScan α) :=
  fun s => ⟨rfl, List.suffix_refl s.cells⟩

theorem failAt {position : Position} {fault : LexFault} :
    Drops (failAt position fault : CellScan α) :=
  fun s => ⟨rfl, List.suffix_refl s.cells⟩

theorem ahead {n : Nat} : Drops (ahead n) := fun s => ⟨rfl, List.suffix_refl s.cells⟩

theorem skip {n : Nat} : Drops (skip n) := fun s => ⟨rfl, List.drop_suffix n s.cells⟩

theorem takeWhile {q : Char → Bool} : Drops (takeWhile q) :=
  fun _ => ⟨rfl, List.dropWhile_suffix fun c : Cell => q c.char⟩

theorem takeIf {q : Char → Bool} : Drops (takeIf q) := by
  rintro ⟨_ | ⟨c, cs⟩, finish⟩
  · exact ⟨rfl, List.suffix_refl _⟩
  · unfold DropsAt left CellScan.takeIf
    by_cases hc : q c.char
    · simp only [hc, if_true, true_and]
      exact List.suffix_cons c cs
    · simp only [hc, Bool.false_eq_true, if_false, true_and]
      exact List.suffix_refl _

/-- Of two scans the second one begins where the first one stops. -/
theorem bind {p : CellScan α} {f : α → CellScan β} (hp : Drops p) (hf : ∀ a, Drops (f a)) :
    Drops (p >>= f) := by
  intro s
  have hp := hp s
  unfold DropsAt at hp ⊢
  cases hrun : p s with
  | ok a s' =>
    rw [left_of_ok hrun] at hp
    obtain ⟨hfinish, hcells⟩ := hf a s'
    rw [left_bind hrun]
    exact ⟨hfinish.trans hp.1, hcells.trans hp.2⟩
  | error e s' =>
    rw [left_of_error hrun] at hp
    rw [left_of_error (bind_of_error hrun)]
    exact hp

/-- A scan may depend on the source it starts from. -/
theorem get_bind {f : CellSource → CellScan β} (hf : ∀ s, DropsAt s (f s)) : Drops (get >>= f) := hf

/-- Cells that are put are the last ones of the source. -/
theorem setCells_bind {s : CellSource} {cells : List Cell} {f : Unit → CellScan β}
    (hcells : cells <:+ s.cells) (hf : Drops (f ())) : DropsAt s (setCells cells >>= f) := by
  obtain ⟨hfinish, hsuffix⟩ := hf ⟨cells, s.finish⟩
  exact ⟨hfinish, hsuffix.trans hcells⟩

end Drops

/-! ### The scans of tokens -/

theorem drops_digits (b : NumberBase) (leading : Bool) : Drops (digits b leading) := by
  unfold digits
  refine Drops.get_bind fun s => ?_
  obtain ⟨taken, htaken, -⟩ := DigitRun.read_eq_append b leading s.cells
  refine Drops.setCells_bind ⟨taken, htaken.symm⟩ ?_
  split
  · exact Drops.failHere
  · exact Drops.pure

theorem drops_endNumber (b : NumberBase) : Drops (endNumber b) := by
  unfold endNumber
  refine Drops.ahead.bind fun cs => ?_
  split
  · split
    · exact Drops.failHere
    · exact Drops.pure
  · exact Drops.pure

theorem drops_markedNumber (b : NumberBase) (start : Position) : Drops (markedNumber b start) := by
  unfold markedNumber
  refine (drops_digits b true).bind fun ds => ?_
  split
  · refine Drops.ahead.bind fun cs => ?_
    split
    · split
      · exact Drops.failHere.bind fun _ => Drops.failAt
      · exact Drops.failAt
    · exact Drops.failAt
  · exact (drops_endNumber b).bind fun _ => Drops.pure

theorem drops_fraction : Drops fraction := by
  unfold fraction
  refine Drops.ahead.bind fun cs => ?_
  split
  · split
    · exact Drops.skip.bind fun _ => (drops_digits _ _).bind fun _ => Drops.pure
    · exact Drops.pure
  · exact Drops.pure

theorem drops_exponent : Drops exponent := by
  unfold exponent
  refine Drops.takeIf.bind fun mark => ?_
  split
  · exact Drops.pure
  · refine Drops.takeIf.bind fun sign => Drops.ahead.bind fun cs => ?_
    have hdigits := (drops_digits .decimal false).bind fun ds =>
      Drops.pure (a := mark ++ sign ++ ds)
    split
    · split
      · exact Drops.failHere.bind fun _ => hdigits
      · exact hdigits
    · exact Drops.failHere.bind fun _ => hdigits

theorem drops_decimalNumber (first : Char) : Drops (decimalNumber first) := by
  unfold decimalNumber
  refine (drops_digits _ _).bind fun whole => drops_fraction.bind fun fraction => ?_
  refine drops_exponent.bind fun exponent => Drops.takeIf.bind fun imaginary => ?_
  exact (drops_endNumber _).bind fun _ => Drops.pure

theorem drops_number (first : Char) (start : Position) : Drops (number first start) := by
  unfold number
  refine Drops.ahead.bind fun cs => ?_
  split
  · exact Drops.skip.bind fun _ => drops_markedNumber _ start
  · exact drops_decimalNumber _

theorem drops_stringLiteral (quote : Char) (start : Position) :
    Drops (stringLiteral quote start) := by
  unfold stringLiteral
  refine Drops.get_bind fun s => ?_
  have hbody := StringBody.of_read quote s.cells
  split
  · next v rest h =>
    rw [h] at hbody
    obtain ⟨taken, c, htaken, -⟩ := hbody
    refine Drops.setCells_bind ⟨taken ++ [c], ?_⟩ Drops.pure
    rw [htaken, List.append_assoc]
    rfl
  · next rest h =>
    rw [h] at hbody
    exact Drops.setCells_bind hbody Drops.failAt

/-- A scan that first takes some of the next cells moves on, whatever comes behind it. -/
theorem past_bind {p : CellScan α} {f : α → CellScan β} {s s' : CellSource} {a : α}
    (h : p s = .ok a s') (hpast : s'.Past s) (hf : Drops (f a)) : ((p >>= f).left s).Past s := by
  obtain ⟨hfinish, hsuffix⟩ := hf s'
  rw [left_bind h]
  exact ⟨hfinish.trans hpast.1, hsuffix.trans hpast.2.1,
    Nat.lt_of_le_of_lt hsuffix.length_le hpast.2.2⟩

/-- **A lexeme takes a cell, also one that fails.** -/
theorem past_lexeme (c : Cell) (cs : List Cell) (finish start : Position) :
    ((lexeme c.char start).left ⟨c :: cs, finish⟩).Past ⟨c :: cs, finish⟩ := by
  have hdrop (n : Nat) (hn : 0 < n) :
      CellSource.Past ⟨(c :: cs).drop n, finish⟩ ⟨c :: cs, finish⟩ := by
    refine ⟨rfl, List.drop_suffix n _, ?_⟩
    rw [List.length_drop, List.length_cons]
    omega
  unfold lexeme
  rw [left_bind (rfl : ahead 3 ⟨c :: cs, finish⟩ = .ok (((c :: cs).take 3).map Cell.char) _)]
  dsimp only
  split
  · next p _ =>
    have hlength : 0 < p.spelling.length := by
      rw [← String.length_toList]
      exact List.length_pos_iff.2 (Lexeme.punctuator p).ne_nil
    exact past_bind rfl (hdrop _ hlength) Drops.pure
  split
  · next hword =>
    have hfirst : (c :: cs).dropWhile (fun d : Cell => isWordChar d.char) <:+ cs := by
      rw [List.dropWhile_cons, if_pos (isWordChar_of_isWordStart hword)]
      exact List.dropWhile_suffix _
    refine past_bind rfl ⟨rfl, hfirst.trans (List.suffix_cons c cs), ?_⟩ Drops.pure
    exact Nat.lt_succ_of_le hfirst.length_le
  · refine past_bind rfl (hdrop 1 Nat.one_pos) ?_
    split
    · exact (drops_stringLiteral _ _).bind fun _ => Drops.pure
    split
    · exact (drops_number _ _).bind fun _ => Drops.pure
    · exact Drops.failAt

/-- A lexeme is neither a line break nor the end. -/
theorem lexeme_token_ne {c : Char} {start : Position} {s s' : CellSource} {t : Token}
    (h : lexeme c start s = .ok t s') : t ≠ .newline ∧ t ≠ .endOfInput := by
  unfold lexeme at h
  obtain ⟨cs, s₁, -, h⟩ := bind_eq_ok h
  cases hlongest : Punctuator.longest? cs with
  | some p =>
    simp only [hlongest] at h
    obtain ⟨_, s₂, -, h⟩ := bind_eq_ok h
    cases h
    exact ⟨nofun, nofun⟩
  | none =>
  simp only [hlongest] at h
  split at h
  · obtain ⟨word, s₂, -, h⟩ := bind_eq_ok h
    cases h
    unfold Token.ofWord
    split <;> exact ⟨nofun, nofun⟩
  obtain ⟨_, s₂, -, h⟩ := bind_eq_ok h
  split at h
  · obtain ⟨_, s₃, -, h⟩ := bind_eq_ok h
    cases h
    exact ⟨nofun, nofun⟩
  split at h
  · obtain ⟨_, s₃, -, h⟩ := bind_eq_ok h
    cases h
    exact ⟨nofun, nofun⟩
  · cases h

end CellScan

/-- A gap that takes no cell has nothing to tell. -/
theorem Gap.skip_of_length {firstBreak : Option Position} {cells : List Cell}
    (h : (skip .plain firstBreak cells).rest.length = cells.length) :
    skip .plain firstBreak cells = ⟨firstBreak, none, cells⟩ := by
  -- where skipping goes on behind the first cell, less is left over
  have hshort {state : GapState} {b : Option Position} {rest : List Cell} (n : Nat)
      (h : (skip state b rest).rest.length = rest.length + n + 1) : False := by
    have hle := (skip_suffix state b rest).length_le
    omega
  cases cells with
  | nil => rfl
  | cons c cs =>
    rw [skip.eq_def] at h ⊢
    by_cases hblank : isBlank c.char
    · simp only [if_pos hblank] at h
      exact (hshort 0 h).elim
    by_cases hbreak : c.isBreak
    · simp only [if_neg hblank, if_pos hbreak] at h
      exact (hshort 0 h).elim
    by_cases hslash : c.char = '/'
    · simp only [if_neg hblank, if_neg hbreak, if_pos hslash] at h ⊢
      cases cs with
      | nil => rfl
      | cons d ds =>
        dsimp only at h ⊢
        by_cases hline : d.char = '/'
        · rw [if_pos hline] at h
          exact (hshort 1 h).elim
        by_cases hblock : d.char = '*'
        · rw [if_neg hline, if_pos hblock] at h
          exact (hshort 1 h).elim
        · rw [if_neg hline, if_neg hblock]
    · simp only [if_neg hblank, if_neg hbreak, if_neg hslash]

namespace CellScan

/-- If a gap crosses a line break, that is the token. -/
theorem token_of_break {p : Position} (h : gap s = .ok (some p) s') :
    token s = .ok ⟨.newline, p⟩ s' := by
  unfold token
  rw [bind_of_ok h]
  rfl

/-- **A token, an error, or the end.** The first two take a cell. -/
theorem token_cases (s : CellSource) :
    token s = .ok ⟨.endOfInput, s.finish⟩ ⟨[], s.finish⟩ ∨
      (∃ t s', token s = .ok t s' ∧ t.token ≠ .endOfInput ∧ s'.Past s) ∨
      ∃ e s', token s = .error e s' ∧ s'.Past s := by
  have hgap := gap_run s
  have hsuffix : (Gap.leading s.cells).rest <:+ s.cells := Gap.skip_suffix ..
  have hpast (h : Gap.leading s.cells ≠ ⟨none, none, s.cells⟩) :
      CellSource.Past ⟨(Gap.leading s.cells).rest, s.finish⟩ s :=
    ⟨rfl, hsuffix, Nat.lt_of_le_of_ne hsuffix.length_le fun hlength =>
      h (Gap.skip_of_length hlength)⟩
  cases hopen : (Gap.leading s.cells).openComment with
  | some start =>
    rw [hopen] at hgap
    refine .inr (.inr ⟨_, _, bind_of_error hgap, hpast ?_⟩)
    intro h
    rw [h] at hopen
    cases hopen
  | none =>
    rw [hopen] at hgap
    cases hbreak : (Gap.leading s.cells).firstBreak with
    | some p =>
      rw [hbreak] at hgap
      refine .inr (.inl ⟨_, _, token_of_break hgap, nofun, hpast ?_⟩)
      intro h
      rw [h] at hbreak
      cases hbreak
    | none =>
      rw [hbreak] at hgap
      unfold token
      rw [bind_of_ok hgap]
      cases hrest : (Gap.leading s.cells).rest with
      | nil => exact .inl rfl
      | cons c cs =>
        have hcells : c :: cs <:+ s.cells := hrest ▸ hsuffix
        have hlexeme := (past_lexeme c cs s.finish c.position).mono (s := s) rfl hcells
        change _ ∨ (∃ t s', (lexeme c.char c.position >>= fun a =>
          pure (PlacedToken.mk a c.position)) ⟨c :: cs, s.finish⟩ = _ ∧ _) ∨ ∃ e s', (lexeme
            c.char c.position >>= fun a => pure (PlacedToken.mk a c.position)) _ = _ ∧ _
        cases hrun : lexeme c.char c.position ⟨c :: cs, s.finish⟩ with
        | ok t s' =>
          rw [left_of_ok hrun] at hlexeme
          exact .inr (.inl ⟨_, _, bind_of_ok hrun, (lexeme_token_ne hrun).2, hlexeme⟩)
        | error e s' =>
          rw [left_of_error hrun] at hlexeme
          exact .inr (.inr ⟨_, _, bind_of_error hrun, hlexeme⟩)

/-- Behind the last cell there is only the end. -/
theorem token_nil (finish : Position) :
    token ⟨[], finish⟩ = .ok ⟨.endOfInput, finish⟩ ⟨[], finish⟩ := rfl

end CellScan

namespace CellSource

variable {s s' : CellSource}

/-- How many tokens may be taken does not matter if there are more of them than cells. -/
theorem takeUpTo_eq {n m : Nat} (s : CellSource) (hn : s.cells.length < n)
    (hm : s.cells.length < m) :
    takeUpTo n s = takeUpTo m s := by
  induction n generalizing m s with
  | zero => exact absurd hn (Nat.not_lt_zero _)
  | succ n ih =>
    obtain ⟨m, rfl⟩ : ∃ j, m = j + 1 := ⟨m - 1, by omega⟩
    rw [takeUpTo, takeUpTo]
    rcases CellScan.token_cases s with hend | ⟨t, s', ht, hne, -, -, hlt⟩ | ⟨e, s', he, -⟩
    · simp only [hend, if_true]
    · simp only [ht, if_neg hne]
      rw [ih s' (m := m) (by omega) (by omega)]
    · simp only [he]

/-- The tokens of a source are the first one and those behind it. -/
theorem tokens_eq (s : CellSource) : s.tokens =
    match CellScan.token s with
    | .error e _ => .error e
    | .ok t s' => if t.token = .endOfInput then .ok [t] else s'.tokens.map (t :: ·) := by
  rw [tokens, takeUpTo]
  rcases CellScan.token_cases s with hend | ⟨t, s', ht, hne, -, -, hlt⟩ | ⟨e, s', he, -⟩
  · simp only [hend, if_true]
  · simp only [ht, if_neg hne]
    have hrest := takeUpTo_eq s' (m := s'.cells.length + 2) (Nat.lt_succ_of_lt hlt) (by omega)
    exact congrArg (Except.map (t :: ·)) hrest
  · simp only [he]

end CellSource

end DrakeSyntax
