import DrakeSyntax.Proofs.Layout.Gap

/-!
# Characters and counters as cells

The scanner takes characters and moves its counters with them. What is left of a text can be seen as
cells at any time (`Source.asCells`): a character within a line is a cell with the position that the
counters give, and a line break, which is taken by a step of its own, is one cell. So a scan of
characters can be compared with a scan of cells from any source on (`Scan.Mirrors`).

* `Source.front`: what a source begins with.
* `Source.Follows`: what is left of a source behind some characters.
* `Scan.Mirrors`: two scans come to the same and leave the same.
-/

namespace DrakeSyntax

/-- A character that the scanner does not take for a line break breaks no line. -/
theorem breaksLine_of_not_isLineBreak {c : Char} (h : ¬ isLineBreak c) : breaksLine c = false :=
  Bool.eq_false_iff.2 h

theorem Cell.not_isBreak {c : Char} {p : Position} (h : breaksLine c = false) :
    ¬ Cell.isBreak ⟨c, p⟩ := by
  rw [Cell.isBreak_of_breaksLine (c := ⟨c, p⟩) h]
  exact Bool.false_ne_true

/-- A character that satisfies what no line break satisfies breaks no line. -/
theorem breaksLine_of_test {q : Char → Bool} (hn : q '\n' = false) (hr : q '\r' = false) {c : Char}
    (h : q c) : breaksLine c = false := by
  rw [← Bool.not_eq_true]
  intro hbreak
  obtain rfl | rfl : c = '\n' ∨ c = '\r' := by simpa [breaksLine] using hbreak
  · rw [hn] at h
    cases h
  · rw [hr] at h
    cases h

namespace Source

variable {s s' s₁ : Source}

/-- What is left of the text, cell by cell. -/
def asCells (s : Source) : CellSource := .ofChars s.position s.chars

/-- What a source begins with, and what its cells begin with then. -/
inductive Front (s : Source) : Prop
  | atEnd (hend : s.atEnd) (cells : s.asCells = ⟨[], s.position⟩)
  | lineBreak (hend : ¬ s.atEnd) (hbreak : breaksLine s.peek)
      (cells : s.asCells = .cons ⟨'\n', s.position⟩ s.consumeLineBreak.asCells)
  | char (hend : ¬ s.atEnd) (hline : breaksLine s.peek = false)
      (cells : s.asCells = .cons ⟨s.peek, s.position⟩ s.advance.asCells)

/-- **The counters are right**: a step of the scanner takes one cell and stands at the next one. -/
theorem front (s : Source) : s.Front := by
  obtain ⟨_ | ⟨c, cs⟩, p⟩ := s
  · exact .atEnd rfl rfl
  cases hc : breaksLine c with
  | false => exact .char Bool.false_ne_true hc (CellSource.ofChars_cons hc p cs)
  | true =>
    refine .lineBreak Bool.false_ne_true hc ?_
    obtain rfl | rfl : c = '\n' ∨ c = '\r' := by simpa [breaksLine] using hc
    · rfl
    by_cases hcs : ∃ ds, cs = '\n' :: ds
    · obtain ⟨ds, rfl⟩ := hcs
      rfl
    · have hlone : consumeLineBreak ⟨'\r' :: cs, p⟩ = ⟨cs, p.nextLine 1⟩ := by
        cases cs with
        | nil => rfl
        | cons d ds =>
          have hd : (d == '\n') = false := beq_false_of_ne fun hd => hcs ⟨ds, by rw [hd]⟩
          simp only [consumeLineBreak, peek, advance, List.headD_cons, hd, Bool.and_false,
            Bool.false_eq_true, if_false]
          rfl
      rw [hlone]
      exact CellSource.ofChars.eq_3 p cs fun ds hds => hcs ⟨ds, hds⟩

theorem asCells_of_atEnd (h : s.atEnd) : s.asCells = ⟨[], s.position⟩ := by
  obtain ⟨_ | ⟨c, cs⟩, p⟩ := s
  · rfl
  · cases h

theorem asCells_advance (hend : ¬ s.atEnd) (hline : breaksLine s.peek = false) :
    s.asCells = .cons ⟨s.peek, s.position⟩ s.advance.asCells := by
  cases s.front with
  | atEnd h => exact absurd h hend
  | lineBreak _ hbreak => rw [hbreak] at hline; cases hline
  | char _ _ cells => exact cells

theorem asCells_consumeLineBreak (hend : ¬ s.atEnd) (hbreak : breaksLine s.peek) :
    s.asCells = .cons ⟨'\n', s.position⟩ s.consumeLineBreak.asCells := by
  cases s.front with
  | atEnd h => exact absurd h hend
  | lineBreak _ _ cells => exact cells
  | char _ hline => rw [hline] at hbreak; cases hbreak

/-- A character that satisfies what neither a line break nor the null character satisfies is the next
one of its line. -/
theorem inLine_of_peek {q : Char → Bool} (hn : q '\n' = false) (hr : q '\r' = false)
    (h0 : q '\x00' = false) (h : q s.peek) : ¬ s.atEnd ∧ breaksLine s.peek = false := by
  refine ⟨?_, breaksLine_of_test hn hr h⟩
  intro hend
  obtain ⟨_ | ⟨c, cs⟩, p⟩ := s
  · change q '\x00' = true at h
    rw [h0] at h
    cases h
  · cases hend

/-- What holds of the next character, and of a line break, holds of the first cell. -/
theorem head_asCells {P : Char → Prop} (hbreak : P '\n') (h : ¬ s.atEnd → P s.peek) :
    ∀ c ∈ s.asCells.cells.head?, P c.char := by
  cases s.front with
  | atEnd _ cells =>
    rw [cells]
    intro c hc
    cases hc
  | lineBreak _ _ cells =>
    rw [cells]
    rintro c ⟨rfl⟩
    exact hbreak
  | char hend _ cells =>
    rw [cells]
    rintro c ⟨rfl⟩
    exact h hend

theorem position_asCells (s : Source) : s.asCells.position = s.position :=
  CellSource.position_ofChars s.position s.chars

/-- What stands behind the next character, if it is looked at. -/
theorem peekNext?_eq (hend : ¬ s.atEnd) : s.peekNext? = s.advance.chars.head? := by
  obtain ⟨_ | ⟨c, _ | ⟨d, cs⟩⟩, p⟩ := s
  · exact absurd rfl hend
  · rfl
  · rfl

/-! ### What is left behind some characters -/

/-- `s'` is what is left of `s` behind some characters. -/
structure Follows (s' s : Source) : Prop where
  chars : ∃ taken, s.chars = taken ++ s'.chars ∧
    s'.position.offset = s.position.offset + byteLength taken
  finish : s'.asCells.finish = s.asCells.finish

namespace Follows

theorem refl (s : Source) : s.Follows s := ⟨⟨[], rfl, rfl⟩, rfl⟩

theorem trans (h : s'.Follows s₁) (h₁ : s₁.Follows s) : s'.Follows s := by
  obtain ⟨⟨taken', hchars', hoffset'⟩, hfinish'⟩ := h
  obtain ⟨⟨taken, hchars, hoffset⟩, hfinish⟩ := h₁
  refine ⟨⟨taken ++ taken', ?_, ?_⟩, hfinish'.trans hfinish⟩
  · rw [hchars, hchars', List.append_assoc]
  · rw [hoffset', hoffset, byteLength_append, Nat.add_assoc]

theorem length_le (h : s'.Follows s) : s'.chars.length ≤ s.chars.length := by
  obtain ⟨⟨taken, hchars, -⟩, -⟩ := h
  rw [hchars, List.length_append]
  exact Nat.le_add_left ..

/-- What is left of a source is known by its cells. -/
theorem eq_of_asCells (h : s'.Follows s) (h₁ : s₁.Follows s) (hcells : s'.asCells = s₁.asCells) :
    s' = s₁ := by
  have hposition : s'.position = s₁.position := by
    rw [← position_asCells, hcells, position_asCells]
  obtain ⟨⟨taken, hchars, hoffset⟩, -⟩ := h
  obtain ⟨⟨taken₁, hchars₁, hoffset₁⟩, -⟩ := h₁
  have hbytes : byteLength taken = byteLength taken₁ := by
    rw [hposition, hoffset₁] at hoffset
    omega
  obtain ⟨-, hrest⟩ := append_inj_of_byteLength (hchars.symm.trans hchars₁) hbytes
  obtain ⟨cs, p⟩ := s'
  cases hposition
  cases hrest
  rfl

end Follows

theorem follows_advance (hend : ¬ s.atEnd) (hline : breaksLine s.peek = false) :
    s.advance.Follows s := by
  refine ⟨?_, ?_⟩
  · obtain ⟨_ | ⟨c, cs⟩, p⟩ := s
    · exact absurd rfl hend
    · exact ⟨[c], rfl, rfl⟩
  · rw [asCells_advance hend hline]
    rfl

theorem follows_consumeLineBreak (hend : ¬ s.atEnd) (hbreak : breaksLine s.peek) :
    s.consumeLineBreak.Follows s := by
  refine ⟨?_, ?_⟩
  · obtain ⟨_ | ⟨c, cs⟩, p⟩ := s
    · exact absurd rfl hend
    · unfold consumeLineBreak
      dsimp only
      split
      · next htwo =>
        cases cs with
        | nil => exact ⟨[c], rfl, rfl⟩
        | cons d ds => exact ⟨[c, d], rfl, Nat.add_assoc ..⟩
      · exact ⟨[c], rfl, rfl⟩
  · rw [asCells_consumeLineBreak hend hbreak]
    rfl

/-- The character behind the next one is the next one of what is left. -/
theorem advance_of_peekNext? {d : Char} (hend : ¬ s.atEnd) (h : s.peekNext? = some d) :
    ¬ s.advance.atEnd ∧ s.advance.peek = d := by
  rw [peekNext?_eq hend] at h
  unfold atEnd peek
  cases hchars : s.advance.chars with
  | nil =>
    rw [hchars] at h
    cases h
  | cons c cs =>
    rw [hchars] at h
    cases h
    exact ⟨Bool.false_ne_true, rfl⟩

/-- Two characters of one line are two cells. -/
theorem asCells_advance_advance {d : Char} (hend : ¬ s.atEnd)
    (hline : breaksLine s.peek = false) (h : s.peekNext? = some d) (hd : breaksLine d = false) :
    s.asCells = .cons ⟨s.peek, s.position⟩
        (.cons ⟨d, s.advance.position⟩ s.advance.advance.asCells) ∧
      s.advance.advance.Follows s := by
  obtain ⟨hmore, rfl⟩ := advance_of_peekNext? hend h
  rw [asCells_advance hend hline, asCells_advance hmore hd]
  exact ⟨rfl, (follows_advance hmore hd).trans (follows_advance hend hline)⟩

theorem peek_advance_ne {d : Char} (hend : ¬ s.atEnd) (h : s.peekNext? ≠ some d) :
    ¬ s.advance.atEnd → s.advance.peek ≠ d := by
  rw [peekNext?_eq hend] at h
  unfold atEnd peek
  cases hchars : s.advance.chars with
  | nil => exact fun hmore => absurd rfl hmore
  | cons c cs =>
    rw [hchars] at h
    exact fun _ hpeek => h (congrArg some hpeek)

end Source

/-! ### Two scans that come to the same -/

namespace Scan

variable {α β γ δ : Type} {s s₁ : Source} {f : β → α} {g : δ → γ}

/-- What a scan from `s` comes to is what a scan of cells comes to: `f` makes its result of the other
one, an error is the same, and what is left are the same cells. -/
inductive Mirrored (s : Source) (f : β → α) :
    EStateM.Result LexError Source α → EStateM.Result LexError CellSource β → Prop
  | ok {a b s' t} (value : a = f b) (cells : s'.asCells = t) (follows : s'.Follows s) :
      Mirrored s f (.ok a s') (.ok b t)
  | error {e s' t} (cells : s'.asCells = t) (follows : s'.Follows s) :
      Mirrored s f (.error e s') (.error e t)

/-- From `s` on the scan comes to what the scan of cells comes to. -/
def MirrorsAt (s : Source) (f : β → α) (p : Scan α) (q : CellScan β) : Prop :=
  Mirrored s f (p s) (q s.asCells)

/-- The scan comes to what the scan of cells comes to, wherever it starts. -/
def Mirrors (f : β → α) (p : Scan α) (q : CellScan β) : Prop := ∀ s, MirrorsAt s f p q

/-- Other characters may be taken before. -/
theorem Mirrored.of_follows {r : EStateM.Result LexError Source α}
    {r' : EStateM.Result LexError CellSource β} (h : Mirrored s₁ f r r') (hs : s₁.Follows s) :
    Mirrored s f r r' := by
  cases h with
  | ok value cells follows => exact .ok value cells (follows.trans hs)
  | error cells follows => exact .error cells (follows.trans hs)

/-- The results may be compared by way of another one. -/
theorem Mirrored.map {f' : γ → α} {h : β → γ} {r : EStateM.Result LexError Source α}
    {q : CellScan β} {t : CellSource} (hr : Mirrored s f r (q t)) (hf : ∀ b, f b = f' (h b)) :
    Mirrored s f' r ((q >>= fun b => pure (h b)) t) := by
  simp only [Bind.bind, EStateM.bind]
  cases hq : q t with
  | ok b t' =>
    rw [hq] at hr
    cases hr with
    | ok value cells follows => exact .ok (value.trans (hf b)) cells follows
  | error e t' =>
    rw [hq] at hr
    cases hr with
    | error cells follows => exact .error cells follows

namespace MirrorsAt

theorem pure {a : α} {b : β} (h : a = f b) : MirrorsAt s f (Pure.pure a) (Pure.pure b) :=
  .ok h rfl (.refl s)

theorem failAt {position : Position} {fault : LexFault} :
    MirrorsAt s f (failAt position fault) (CellScan.failAt position fault) :=
  .error rfl (.refl s)

theorem failHere {fault : LexFault} :
    MirrorsAt s f (failHere fault) (CellScan.failHere fault) := by
  unfold MirrorsAt Scan.failHere CellScan.failHere
  rw [s.position_asCells]
  exact .error rfl (.refl s)

/-- Nothing comes behind a failure. -/
theorem failAt_bind {position : Position} {fault : LexFault} {k : α → Scan γ}
    {l : β → CellScan δ} :
    MirrorsAt s g (Scan.failAt position fault >>= k) (CellScan.failAt position fault >>= l) :=
  .error rfl (.refl s)

theorem failHere_bind {fault : LexFault} {k : α → Scan γ} {l : β → CellScan δ} :
    MirrorsAt s g (Scan.failHere fault >>= k) (CellScan.failHere fault >>= l) := by
  have h : MirrorsAt s g (Scan.failHere fault : Scan γ) (CellScan.failHere fault) := failHere
  exact h

theorem bind {p : Scan α} {q : CellScan β} {k : α → Scan γ} {l : β → CellScan δ}
    (hp : MirrorsAt s f p q) (hk : ∀ b s', s'.Follows s → MirrorsAt s' g (k (f b)) (l b)) :
    MirrorsAt s g (p >>= k) (q >>= l) := by
  unfold MirrorsAt at hp ⊢
  simp only [Bind.bind, EStateM.bind]
  cases hrun : p s with
  | ok a s' =>
    rw [hrun] at hp
    cases hcells : q s.asCells with
    | ok b t =>
      rw [hcells] at hp
      cases hp with
      | ok value cells follows =>
        subst value cells
        exact (hk b s' follows).of_follows follows
    | error e t => rw [hcells] at hp; cases hp
  | error e s' =>
    rw [hrun] at hp
    cases hcells : q s.asCells with
    | ok b t => rw [hcells] at hp; cases hp
    | error e t =>
      rw [hcells] at hp
      cases hp with
      | error cells follows => exact .error cells follows

/-- The results may be compared by way of another one. -/
theorem map {f' : γ → α} {h : β → γ} {p : Scan α} {q : CellScan β} (hp : MirrorsAt s f p q)
    (hf : ∀ b, f b = f' (h b)) : MirrorsAt s f' p (q >>= fun b => Pure.pure (h b)) :=
  Mirrored.map hp hf

theorem peek_bind {k : Char → Scan γ} {q : CellScan δ} (h : MirrorsAt s g (k s.peek) q) :
    MirrorsAt s g (peek >>= k) q := h

theorem peekNext?_bind {k : Option Char → Scan γ} {q : CellScan δ}
    (h : MirrorsAt s g (k s.peekNext?) q) : MirrorsAt s g (peekNext? >>= k) q := h

theorem atEnd_bind {k : Bool → Scan γ} {q : CellScan δ} (h : MirrorsAt s g (k s.atEnd) q) :
    MirrorsAt s g (atEnd >>= k) q := h

theorem position_bind {k : Position → Scan γ} {q : CellScan δ}
    (h : MirrorsAt s g (k s.position) q) : MirrorsAt s g (position >>= k) q := h

theorem ahead_bind {n : Nat} {p : Scan γ} {l : List Char → CellScan δ}
    (h : MirrorsAt s g p (l ((s.asCells.cells.take n).map Cell.char))) :
    MirrorsAt s g p (CellScan.ahead n >>= l) := h

/-- A character of a line is taken as a cell. -/
theorem advance_bind {k : Char → Scan γ} {l : Unit → CellScan δ} (hend : ¬ s.atEnd)
    (hline : breaksLine s.peek = false) (h : MirrorsAt s.advance g (k s.peek) (l ())) :
    MirrorsAt s g (advance >>= k) (CellScan.skip 1 >>= l) := by
  have hskip : (CellScan.skip 1 >>= l) s.asCells = l () s.advance.asCells := by
    rw [Source.asCells_advance hend hline]
    rfl
  unfold MirrorsAt
  rw [hskip]
  exact h.of_follows (Source.follows_advance hend hline)

end MirrorsAt

theorem bind_of_ok {p : Scan α} {k : α → Scan γ} {a : α} {s' : Source} (h : p s = .ok a s') :
    (p >>= k) s = k a s' := by
  simp only [Bind.bind, EStateM.bind, h]

theorem bind_of_error {p : Scan α} {k : α → Scan γ} {e : LexError} {s' : Source}
    (h : p s = .error e s') : (p >>= k) s = .error e s' := by
  simp only [Bind.bind, EStateM.bind, h]

theorem Mirrors.bind {p : Scan α} {q : CellScan β} {k : α → Scan γ} {l : β → CellScan δ}
    (hp : Mirrors f p q) (hk : ∀ b, Mirrors g (k (f b)) (l b)) :
    Mirrors g (p >>= k) (q >>= l) :=
  fun s => (hp s).bind fun b s' _ => hk b s'

end Scan

end DrakeSyntax
