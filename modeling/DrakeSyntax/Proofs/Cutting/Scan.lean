import DrakeSyntax.Proofs.Cutting
import DrakeSyntax.Proofs.Spelling.Scan
import DrakeSyntax.Proofs.Cells.Progress

/-!
# Scanning a source that is cut off

A scan that leaves the last cells of its source alone does the same if they are not there. It may
have looked at them, but what it looks for is never the end of the source: where it finds none of
what goes on with a token, it does not matter whether something else follows or nothing. And no
scan goes on behind a line break, so that it always leaves alone what begins with one.

* `CellScan.CutsOff t p`: if `p` leaves `t` alone, it does the same where the source is cut off in
  front of `t`.
* `CellScan.cutsOffAt_lexeme`: the scan of a lexeme does.
-/

namespace DrakeSyntax

variable {α β : Type} {t : CellSource} {cells : List Cell}

/-- A line break does not satisfy what no line break satisfies. -/
theorem CellSource.Breaks.head {q : Char → Bool} (hq : q '\n' = false) {d : Cell} (h : t.Breaks)
    (hd : d ∈ t.cells.head?) : ¬ q d.char := by
  obtain ⟨c, hc, hbreak⟩ := h
  obtain rfl := Option.mem_unique hc hd
  have hchar : c.char = '\n' := by simpa [Cell.isBreak] using hbreak
  rw [hchar, hq]
  exact Bool.false_ne_true

/-! ### What is read from cells -/

theorem DigitRun.rest_suffix (b : NumberBase) (leading : Bool) (cells : List Cell) :
    (read b leading cells).rest <:+ cells := by
  obtain ⟨taken, hcells, -⟩ := read_eq_append b leading cells
  exact ⟨taken, hcells.symm⟩

theorem DigitRun.startsWithDigit_append {b : NumberBase} {more : List Cell}
    (h : startsWithDigit b cells) : startsWithDigit b (cells ++ more) := by
  cases cells with
  | nil => cases h
  | cons c cs => exact h

/-- Digits are not left alone. -/
theorem DigitRun.not_accepts {b : NumberBase} {leading : Bool}
    (h : t.Breaks ∨ t.cells <:+ (read b leading t.cells).rest) :
    ∀ d ∈ t.cells.head?, ¬ b.accepts d.char := by
  intro d hd haccepts
  rcases h with hbreak | hsuffix
  · exact hbreak.head (by cases b <;> rfl) hd haccepts
  · cases hcells : t.cells with
    | nil =>
      rw [hcells] at hd
      cases hd
    | cons e ds =>
      rw [hcells] at hd hsuffix
      obtain rfl := Option.some.inj hd
      rw [read, if_pos haccepts] at hsuffix
      have hle := (hsuffix.trans (rest_suffix b true ds)).length_le
      exact Nat.not_succ_le_self _ hle

/-- A run of digits that leaves all cells alone ends where it begins. -/
theorem DigitRun.read_eq_nil {b : NumberBase} {leading : Bool}
    (h : t.Breaks ∨ (read b leading t.cells).misplaced = false ∧
      t.cells <:+ (read b leading t.cells).rest) :
    read b leading t.cells = ⟨[], false, t.cells⟩ := by
  have haccepts := not_accepts (h.imp_right And.right)
  cases hcells : t.cells with
  | nil => rfl
  | cons d ds =>
    have hd : d ∈ t.cells.head? := by rw [hcells]; rfl
    have hsep : ¬ d.char = '_' := by
      intro hsep
      rcases h with hbreak | ⟨hplaced, hsuffix⟩
      · exact hbreak.head (q := (· == '_')) rfl hd (by simp [hsep])
      · rw [hcells, read, if_neg (haccepts d hd), if_pos hsep] at hplaced hsuffix
        by_cases hnext : leading && startsWithDigit b ds
        · rw [if_pos hnext] at hsuffix
          have hle := (hsuffix.trans (rest_suffix b false ds)).length_le
          exact Nat.not_succ_le_self _ hle
        · rw [if_neg hnext] at hplaced
          cases hplaced
    rw [read, if_neg (haccepts d hd), if_neg hsep]

/-- What a run of digits does not take may be cut off. -/
theorem DigitRun.read_append {b : NumberBase} {leading : Bool}
    (h : t.Breaks ∨ (read b leading (cells ++ t.cells)).misplaced = false ∧
      t.cells <:+ (read b leading (cells ++ t.cells)).rest) :
    read b leading (cells ++ t.cells) =
      { read b leading cells with rest := (read b leading cells).rest ++ t.cells } := by
  fun_induction read b leading cells with
  | case1 leading => exact read_eq_nil h
  | case2 leading c cs hc ih =>
    rw [List.cons_append, read, if_pos hc] at h ⊢
    rw [ih h]
    rfl
  | case3 leading c cs hc hsep hnext ih =>
    obtain ⟨hleading, hstart⟩ := Bool.and_eq_true_iff.1 hnext
    have hnext' : leading && startsWithDigit b (cs ++ t.cells) := by
      rw [hleading, startsWithDigit_append hstart]
      rfl
    rw [List.cons_append, read, if_neg hc, if_pos hsep, if_pos hnext'] at h ⊢
    rw [ih h]
  | case4 leading c cs hc hsep hnext =>
    have hnext' : ¬ (leading && startsWithDigit b (cs ++ t.cells)) := by
      cases cs with
      | cons d ds => exact hnext
      | nil =>
        -- a digit behind the separator would be taken
        intro hnext'
        rw [List.nil_append] at hnext'
        rw [List.cons_append, List.nil_append, read, if_neg hc, if_pos hsep, if_pos hnext'] at h
        obtain ⟨-, hstart⟩ := Bool.and_eq_true_iff.1 hnext'
        obtain ⟨d, hd, haccepts⟩ := (Option.any_eq_true ..).1 hstart
        exact not_accepts (h.imp_right And.right) d hd haccepts
    rw [List.cons_append, read, if_neg hc, if_pos hsep, if_neg hnext']
  | case5 leading c cs hc hsep =>
    rw [List.cons_append, read, if_neg hc, if_neg hsep]

/-- The body with cells put behind what is left. -/
def StringBody.append (more : List Cell) : StringBody → StringBody
  | closed value rest => closed value (rest ++ more)
  | unclosed rest => unclosed (rest ++ more)

theorem StringBody.append_cons (more : List Cell) (c : Char) (body : StringBody) :
    (body.cons c).append more = (body.append more).cons c := by
  cases body <;> rfl

theorem StringBody.length_rest_lt {quote : Char} {value : List Char} {rest : List Cell}
    (h : read quote cells = closed value rest) : rest.length < cells.length := by
  have hbody := of_read quote cells
  rw [h] at hbody
  obtain ⟨taken, c, hcells, -⟩ := hbody
  rw [hcells, List.length_append, List.length_cons]
  omega

/-- Nothing is closed by cells that are left alone. -/
theorem StringBody.read_eq_nil {quote : Char}
    (h : t.Breaks ∨ ∃ value rest, read quote t.cells = closed value rest ∧ t.cells <:+ rest) :
    read quote t.cells = unclosed t.cells := by
  rcases h with ⟨c, hc, hbreak⟩ | ⟨value, rest, hread, hsuffix⟩
  · cases hcells : t.cells with
    | nil => rfl
    | cons d ds =>
      rw [hcells] at hc
      obtain rfl := Option.some.inj hc
      rw [read.eq_def]
      exact if_pos hbreak
  · exact absurd (length_rest_lt hread) (Nat.not_lt.2 hsuffix.length_le)

/-- What stands behind a string literal may be cut off. -/
theorem StringBody.read_append {quote : Char}
    (h : t.Breaks ∨ ∃ value rest, read quote (cells ++ t.cells) = closed value rest ∧
      t.cells <:+ rest) :
    read quote (cells ++ t.cells) = (read quote cells).append t.cells := by
  -- one more character in front does not close the literal
  have hcons {c : Char} {body : StringBody} {more : List Cell}
      (h : t.Breaks ∨ ∃ value rest, body.cons c = closed value rest ∧ more <:+ rest) :
      t.Breaks ∨ ∃ value rest, body = closed value rest ∧ more <:+ rest := by
    rcases h with hbreak | ⟨value, rest, hbody, hsuffix⟩
    · exact .inl hbreak
    · cases body with
      | closed v rest' =>
        cases hbody
        exact .inr ⟨v, _, rfl, hsuffix⟩
      | unclosed rest' => cases hbody
  fun_induction read quote cells with
  | case1 => exact read_eq_nil h
  | case2 c cs hc =>
    rw [List.cons_append, read.eq_def]
    simp only [if_pos hc]
    rfl
  | case3 c cs hc hquote =>
    rw [List.cons_append, read.eq_def]
    simp only [if_neg hc, if_pos hquote]
    rfl
  | case4 c hc hquote hslash =>
    rw [List.cons_append, List.nil_append, read.eq_def] at h ⊢
    simp only [if_neg hc, if_neg hquote, if_pos hslash] at h ⊢
    cases hcells : t.cells with
    | nil => rfl
    | cons d ds =>
      simp only [hcells] at h ⊢
      by_cases hd : d.isBreak
      · rw [if_pos hd]
        rfl
      · rw [if_neg hd] at h
        rcases hcons h with hbreak | ⟨value, rest, hread, hsuffix⟩
        · obtain ⟨e, he, hbreak⟩ := hbreak
          rw [hcells] at he
          obtain rfl := Option.some.inj he
          exact absurd hbreak hd
        · have hlt := length_rest_lt hread
          have hle := hsuffix.length_le
          rw [List.length_cons] at hle
          omega
  | case5 c hc hquote hslash d ds hd =>
    rw [List.cons_append, List.cons_append, read.eq_def]
    simp only [if_neg hc, if_neg hquote, if_pos hslash, if_pos hd]
    rfl
  | case6 c hc hquote hslash d ds hd ih =>
    rw [List.cons_append, List.cons_append, read.eq_def] at h ⊢
    simp only [if_neg hc, if_neg hquote, if_pos hslash, if_neg hd] at h ⊢
    rw [ih (hcons h), append_cons]
  | case7 c cs hc hquote hslash ih =>
    rw [List.cons_append, read.eq_def] at h ⊢
    simp only [if_neg hc, if_neg hquote, if_neg hslash] at h ⊢
    rw [ih (hcons h), append_cons]

/-- A punctuator that fits is the longest one of a text that is cut off behind it. -/
theorem Punctuator.longest?_of_prefix {text pre : List Char} {p : Punctuator}
    (h : longest? text = some p) (hpre : pre <+: text) (hp : p.spelling.toList <+: pre) :
    longest? pre = some p := by
  unfold longest? at h ⊢
  rw [List.find?_eq_some_iff_append] at h ⊢
  obtain ⟨-, longer, shorter, hall, hnone⟩ := h
  refine ⟨List.isPrefixOf_iff_prefix.2 hp, longer, shorter, hall, fun q hq => ?_⟩
  have hq := hnone q hq
  rw [Bool.not_eq_true', Bool.eq_false_iff, ne_eq, List.isPrefixOf_iff_prefix] at hq ⊢
  exact fun hq' => hq (hq'.trans hpre)

/-- If no punctuator fits, none fits what is cut off. -/
theorem Punctuator.longest?_eq_none_of_prefix {text pre : List Char} (h : longest? text = none)
    (hpre : pre <+: text) : longest? pre = none := by
  unfold longest? at h ⊢
  rw [List.find?_eq_none] at h ⊢
  intro q hq hfits
  rw [List.isPrefixOf_iff_prefix] at hfits
  exact h q hq (List.isPrefixOf_iff_prefix.2 (hfits.trans hpre))

/-! ### Scans -/

namespace CellScan

/-- The result with the cells of `t` behind what is left. -/
def restore (t : CellSource) :
    EStateM.Result LexError CellSource α → EStateM.Result LexError CellSource α
  | .ok a s => .ok a (.behind s.cells t)
  | .error e s => .error e (.behind s.cells t)

/-- The scan that ended so has left `t` alone: it succeeded and took none of its cells, or there
is a line break, behind which no scan goes on. -/
def Spares (t : CellSource) (r : EStateM.Result LexError CellSource α) : Prop :=
  t.Breaks ∨ ∃ a s', r = .ok a s' ∧ t.cells <:+ s'.cells

/-- If `p` leaves `t` alone behind the cells, `q` does the same where the source is cut off in
front of `t`. -/
def CutsOffAt (t : CellSource) (cells : List Cell) (p q : CellScan α) : Prop :=
  Spares t (p (.behind cells t)) → p (.behind cells t) = restore t (q ⟨cells, t.position⟩)

theorem Spares.breaks {e : LexError} {s : CellSource}
    (h : Spares t (.error e s : EStateM.Result LexError CellSource α)) : t.Breaks := by
  rcases h with h | ⟨a, s', hok, -⟩
  · exact h
  · cases hok

/-- If two scans together leave `t` alone, so does the first one. -/
theorem Spares.of_bind {p : CellScan α} {f : α → CellScan β} {s : CellSource}
    (h : Spares t ((p >>= f) s))
    (hf : ∀ a, Drops (f a)) : Spares t (p s) := by
  refine h.imp_right ?_
  rintro ⟨b, s', hok, hsuffix⟩
  obtain ⟨a, s₁, hrun, hok⟩ := bind_eq_ok hok
  obtain ⟨-, hcells⟩ := hf a s₁
  rw [left_of_ok hok] at hcells
  exact ⟨a, s₁, hrun, hsuffix.trans hcells⟩

namespace CutsOffAt

variable {p q : CellScan α} {f g : α → CellScan β}

theorem pure {a : α} : CutsOffAt t cells (Pure.pure a) (Pure.pure a) := fun _ => rfl

theorem failHere {fault : LexFault} :
    CutsOffAt t cells (failHere fault : CellScan α) (failHere fault) := by
  intro _
  change EStateM.Result.error _ _ = EStateM.Result.error _ _
  rw [CellSource.position_behind]

theorem failAt {position : Position} {fault : LexFault} :
    CutsOffAt t cells (failAt position fault : CellScan α) (failAt position fault) := fun _ => rfl

/-- A scan that fails leaves alone only what begins with a line break. -/
theorem of_error {e : LexError} {s : CellSource} (herror : p (.behind cells t) = .error e s)
    (h : t.Breaks → CutsOffAt t cells p q) : CutsOffAt t cells p q := by
  intro hspares
  rw [herror] at hspares
  exact h hspares.breaks (.inl hspares.breaks)

/-- If two scans together leave `t` alone, so does the first one, and then the second one. -/
theorem bind (hp : CutsOffAt t cells p q) (hq : Drops q) (hf : ∀ a, Drops (f a))
    (hfg : ∀ a cells', CutsOffAt t cells' (f a) (g a)) :
    CutsOffAt t cells (p >>= f) (q >>= g) := by
  intro hspares
  have hcut := hp (hspares.of_bind hf)
  cases hcutoff : q ⟨cells, t.position⟩ with
  | error e s =>
    rw [hcutoff] at hcut
    rw [bind_of_error hcut, bind_of_error hcutoff]
    rfl
  | ok a s =>
    rw [hcutoff] at hcut
    rw [bind_of_ok hcut] at hspares ⊢
    obtain ⟨cells', finish⟩ := s
    obtain ⟨hfinish, -⟩ := hq ⟨cells, t.position⟩
    rw [left_of_ok hcutoff] at hfinish
    obtain rfl : finish = t.position := hfinish
    rw [bind_of_ok hcutoff]
    exact hfg a cells' hspares

/-- Less may be looked at where the source is cut off. -/
theorem ahead_bind {n : Nat} {f g : List Char → CellScan β}
    (hfg : CutsOffAt t cells (f (((cells ++ t.cells).take n).map Cell.char))
      (g ((cells.take n).map Cell.char))) :
    CutsOffAt t cells (ahead n >>= f) (ahead n >>= g) := hfg

end CutsOffAt

/-- Cells that are skipped are not left alone. -/
theorem Spares.drop_append {n : Nat} {f : Unit → CellScan β}
    (h : Spares t ((skip n >>= f) (.behind cells t))) (hf : Drops (f ()))
    (hn : t.Breaks → n ≤ cells.length) :
    (cells ++ t.cells).drop n = cells.drop n ++ t.cells ∧
      (n ≤ cells.length ∨ t.cells = []) := by
  have hlength : n ≤ cells.length ∨ t.cells = [] := by
    rcases h with hbreak | ⟨a, s', hok, hsuffix⟩
    · exact .inl (hn hbreak)
    · obtain ⟨-, hcells⟩ := hf ⟨(cells ++ t.cells).drop n, t.finish⟩
      change f () ⟨(cells ++ t.cells).drop n, t.finish⟩ = _ at hok
      rw [left_of_ok hok] at hcells
      have hle := (hsuffix.trans hcells).length_le
      rw [List.length_drop, List.length_append] at hle
      rw [← List.length_eq_zero_iff]
      omega
  refine ⟨?_, hlength⟩
  rcases hlength with hlength | hnil
  · exact List.drop_append_of_le_length hlength
  · rw [hnil, List.append_nil, List.append_nil]

theorem CutsOffAt.skip_bind {n : Nat} {f g : Unit → CellScan β} (hn : t.Breaks → n ≤ cells.length)
    (hf : Drops (f ())) (hfg : CutsOffAt t (cells.drop n) (f ()) (g ())) :
    CutsOffAt t cells (skip n >>= f) (skip n >>= g) := by
  intro hspares
  obtain ⟨hdrop, -⟩ := hspares.drop_append hf hn
  change Spares t (f () ⟨(cells ++ t.cells).drop n, t.finish⟩) at hspares
  change f () ⟨(cells ++ t.cells).drop n, t.finish⟩ = _
  rw [hdrop] at hspares ⊢
  exact hfg hspares

/-- The scan takes cells at the front of its source, or none; and if it leaves `t` alone, it does
the same where the source is cut off in front of `t`. -/
structure CutsOff (t : CellSource) (p : CellScan α) : Prop where
  drops : Drops p
  cut : ∀ cells, CutsOffAt t cells p p

namespace CutsOff

variable {p : CellScan α} {f : α → CellScan β}

theorem pure {a : α} : CutsOff t (Pure.pure a : CellScan α) := ⟨Drops.pure, fun _ => CutsOffAt.pure⟩

theorem failHere {fault : LexFault} : CutsOff t (failHere fault : CellScan α) :=
  ⟨Drops.failHere, fun _ => CutsOffAt.failHere⟩

theorem failAt {position : Position} {fault : LexFault} :
    CutsOff t (failAt position fault : CellScan α) :=
  ⟨Drops.failAt, fun _ => CutsOffAt.failAt⟩

theorem bind (hp : CutsOff t p) (hf : ∀ a, CutsOff t (f a)) : CutsOff t (p >>= f) where
  drops := hp.drops.bind fun a => (hf a).drops
  cut cells := (hp.cut cells).bind hp.drops (fun a => (hf a).drops) fun a => (hf a).cut

/-- One character is looked at. Where there is none any more, it was one of those that are left
alone. -/
theorem ahead_one_bind {f : List Char → CellScan β} (hlook : ∀ look, CutsOff t (f look))
    (hend : ∀ d ∈ t.cells.head?, CutsOffAt t [] (f [d.char]) (f [])) :
    CutsOff t (ahead 1 >>= f) := by
  refine ⟨Drops.ahead.bind fun look => (hlook look).drops, fun cells => ?_⟩
  refine CutsOffAt.ahead_bind ?_
  cases cells with
  | cons c cs => exact (hlook _).cut _
  | nil =>
    cases hcells : t.cells with
    | nil => exact (hlook []).cut []
    | cons d ds => exact hend d (by rw [hcells]; rfl)

theorem takeIf {q : Char → Bool} (hq : q '\n' = false) : CutsOff t (takeIf q) := by
  refine ⟨Drops.takeIf, fun cells hspares => ?_⟩
  cases cells with
  | cons c cs =>
    unfold CellScan.takeIf
    by_cases hc : q c.char
    · simp only [CellSource.behind, List.cons_append, hc, if_true]
      rfl
    · simp only [CellSource.behind, List.cons_append, hc, Bool.false_eq_true, if_false]
      rfl
  | nil =>
    obtain ⟨_ | ⟨d, ds⟩, finish⟩ := t
    · rfl
    · have hd : ¬ q d.char := by
        intro hd
        unfold CellScan.takeIf at hspares
        simp only [CellSource.behind, List.nil_append, hd, if_true] at hspares
        rcases hspares with hbreak | ⟨a, s', hok, hsuffix⟩
        · exact hbreak.head hq rfl hd
        · cases hok
          exact Nat.not_succ_le_self _ hsuffix.length_le
      unfold CellScan.takeIf
      simp only [CellSource.behind, List.nil_append, hd, Bool.false_eq_true, if_false]
      rfl

/-- Which characters are taken does not depend on cells that are left alone. -/
theorem takeWhile_append {q : Char → Bool} (hq : q '\n' = false)
    (h : t.Breaks ∨ t.cells <:+ (cells ++ t.cells).dropWhile (q ·.char)) :
    (cells ++ t.cells).takeWhile (q ·.char) = cells.takeWhile (q ·.char) ∧
      (cells ++ t.cells).dropWhile (q ·.char) = cells.dropWhile (q ·.char) ++ t.cells := by
  induction cells with
  | nil =>
    cases hcells : t.cells with
    | nil => exact ⟨rfl, rfl⟩
    | cons d ds =>
      have hd : ¬ q d.char := by
        intro hd
        rcases h with hbreak | hsuffix
        · exact hbreak.head hq (by rw [hcells]; rfl) hd
        · rw [List.nil_append, hcells, List.dropWhile_cons, if_pos hd] at hsuffix
          have hle := (hsuffix.trans (List.dropWhile_suffix _)).length_le
          exact Nat.not_succ_le_self _ hle
      rw [List.nil_append, List.takeWhile_cons, if_neg hd, List.dropWhile_cons, if_neg hd]
      exact ⟨rfl, rfl⟩
  | cons c cs ih =>
    rw [List.cons_append, List.takeWhile_cons, List.dropWhile_cons, List.takeWhile_cons,
      List.dropWhile_cons]
    by_cases hc : q c.char
    · rw [List.cons_append, List.dropWhile_cons, if_pos hc] at h
      obtain ⟨htaken, hleft⟩ := ih h
      simp only [if_pos hc, htaken, hleft, and_self]
    · simp only [if_neg hc, List.cons_append, and_self]

theorem takeWhile {q : Char → Bool} (hq : q '\n' = false) : CutsOff t (takeWhile q) := by
  refine ⟨Drops.takeWhile, fun cells hspares => ?_⟩
  have htake : t.Breaks ∨ t.cells <:+ (cells ++ t.cells).dropWhile (q ·.char) := by
    refine hspares.imp_right ?_
    rintro ⟨a, s', hok, hsuffix⟩
    cases hok
    exact hsuffix
  obtain ⟨htaken, hleft⟩ := takeWhile_append hq htake
  unfold CellScan.takeWhile
  simp only [CellSource.behind, htaken, hleft]
  rfl

end CutsOff

/-! ### The scans of tokens -/

/-- What leaves `t` alone has not failed, unless `t` begins with a line break. -/
theorem Spares.read_digits {b : NumberBase} {leading : Bool} {s : CellSource}
    (h : Spares t (digits b leading s)) : t.Breaks ∨
      (DigitRun.read b leading s.cells).misplaced = false ∧
        t.cells <:+ (DigitRun.read b leading s.cells).rest := by
  rw [digits_run] at h
  refine h.imp_right ?_
  rintro ⟨a, s', hok, hsuffix⟩
  split at hok
  · cases hok
  · next hplaced =>
    cases hok
    exact ⟨by simpa using hplaced, hsuffix⟩

theorem cutsOff_digits (b : NumberBase) (leading : Bool) : CutsOff t (digits b leading) := by
  refine ⟨drops_digits b leading, fun cells hspares => ?_⟩
  have hread := DigitRun.read_append hspares.read_digits
  rw [digits_run, digits_run, CellSource.behind_cells, hread]
  simp only
  split
  · change EStateM.Result.error _ _ = EStateM.Result.error _ _
    rw [← CellSource.position_behind]
    rfl
  · rfl

theorem cutsOff_endNumber (b : NumberBase) : CutsOff t (endNumber b) := by
  unfold endNumber
  refine CutsOff.ahead_one_bind (fun look => ?_) fun d hd => ?_
  · split
    · split
      · exact CutsOff.failHere
      · exact CutsOff.pure
    · exact CutsOff.pure
  · dsimp only
    split
    · next htouches =>
      refine CutsOffAt.of_error rfl fun hbreak => ?_
      exact absurd htouches (hbreak.head (q := fun c => Text.isAlphanumeric c || c == '_') rfl hd)
    · exact CutsOffAt.pure

theorem cutsOff_markedNumber (b : NumberBase) (start : Position) :
    CutsOff t (markedNumber b start) := by
  unfold markedNumber
  refine (cutsOff_digits b true).bind fun ds => ?_
  split
  · refine CutsOff.ahead_one_bind (fun look => ?_) fun d hd => ?_
    · split
      · split
        · exact CutsOff.failHere.bind fun _ => CutsOff.failAt
        · exact CutsOff.failAt
      · exact CutsOff.failAt
    · dsimp only
      split
      · next hletter =>
        refine CutsOffAt.of_error rfl fun hbreak => ?_
        exact absurd hletter (hbreak.head (q := Char.isAlphanum) rfl hd)
      · exact CutsOffAt.failAt
  · exact (cutsOff_endNumber b).bind fun _ => CutsOff.pure

/-- Where digits are scanned, no digit is left alone. -/
theorem Spares.not_isDigit {f : List Char → CellScan β}
    (h : Spares t ((digits .decimal false >>= f) (.behind [] t))) (hf : ∀ ds, Drops (f ds)) :
    ∀ d ∈ t.cells.head?, ¬ d.char.isDigit := by
  intro d hd hdigit
  refine DigitRun.not_accepts ((h.of_bind hf).read_digits.imp_right And.right) d hd ?_
  rwa [NumberBase.accepts_decimal]

theorem cutsOff_fraction : CutsOff t fraction := by
  refine ⟨drops_fraction, fun cells => ?_⟩
  have hbehind : CutsOff t (do return '.' :: (← digits .decimal false)) :=
    (cutsOff_digits .decimal false).bind fun _ => CutsOff.pure
  unfold fraction
  refine CutsOffAt.ahead_bind ?_
  match cells with
  | c :: d :: cs =>
    simp only [List.cons_append, List.take_succ_cons, List.take_zero, List.map_cons, List.map_nil]
    split
    · split
      · exact CutsOffAt.skip_bind (fun _ => Nat.succ_pos _) hbehind.drops (hbehind.cut _)
      · exact CutsOffAt.pure
    · exact CutsOffAt.pure
  | [] =>
    -- a point would be taken
    split
    · next e look hlook =>
      obtain ⟨d, ds, hcells, hd⟩ : ∃ d ds, t.cells = d :: ds ∧ d.char = '.' := by
        cases hcells : t.cells with
        | nil =>
          rw [hcells] at hlook
          cases hlook
        | cons d ds =>
          rw [hcells] at hlook
          exact ⟨d, ds, rfl, (List.cons.inj hlook).1⟩
      split
      · intro hspares
        obtain ⟨-, hlength | hnil⟩ := hspares.drop_append hbehind.drops fun hbreak =>
          absurd (beq_iff_eq.2 hd) (hbreak.head (q := (· == '.')) rfl (by rw [hcells]; rfl))
        · cases hlength
        · rw [hnil] at hcells
          cases hcells
      · exact CutsOffAt.pure
    · exact CutsOffAt.pure
  | [c] =>
    -- a digit behind the point would be taken
    simp only [List.cons_append, List.nil_append, List.take_succ_cons, List.take_nil,
      List.map_cons, List.map_nil]
    split
    · next e look hlook =>
      split
      · next hdigit =>
        intro hspares
        have hnone := Spares.not_isDigit (t := t) hspares fun _ => Drops.pure
        cases hcells : t.cells with
        | nil =>
          rw [hcells] at hlook
          cases (List.cons.inj hlook).2
        | cons d ds =>
          rw [hcells] at hlook
          obtain ⟨rfl, -⟩ := List.cons.inj (List.cons.inj hlook).2
          exact absurd hdigit (hnone d (by rw [hcells]; rfl))
      · split
        · next h => cases (List.cons.inj h).2
        · exact CutsOffAt.pure
    · split
      · next h => cases (List.cons.inj h).2
      · exact CutsOffAt.pure

theorem cutsOff_exponent : CutsOff t exponent := by
  unfold exponent
  refine (CutsOff.takeIf rfl).bind fun mark => ?_
  split
  · exact CutsOff.pure
  have hdigits (sign : List Char) : CutsOff t (do return mark ++ sign ++ (← digits .decimal false)) :=
    (cutsOff_digits .decimal false).bind fun _ => CutsOff.pure
  refine (CutsOff.takeIf rfl).bind fun sign => CutsOff.ahead_one_bind (fun look => ?_) fun d hd => ?_
  · split
    · split
      · exact CutsOff.failHere.bind fun _ => hdigits sign
      · exact hdigits sign
    · exact CutsOff.failHere.bind fun _ => hdigits sign
  · dsimp only
    split
    · exact (CutsOff.failHere.bind fun _ => hdigits sign).cut []
    · next hdigit =>
      intro hspares
      have hnone := hspares.not_isDigit (fun _ => Drops.pure) d hd
      simp [hnone] at hdigit

theorem cutsOff_decimalNumber (first : Char) : CutsOff t (decimalNumber first) := by
  unfold decimalNumber
  refine (cutsOff_digits _ _).bind fun whole => cutsOff_fraction.bind fun fraction => ?_
  refine cutsOff_exponent.bind fun exponent => (CutsOff.takeIf rfl).bind fun imaginary => ?_
  exact (cutsOff_endNumber _).bind fun _ => CutsOff.pure

theorem cutsOff_number (first : Char) (start : Position) : CutsOff t (number first start) := by
  refine ⟨drops_number first start, fun cells => ?_⟩
  unfold number
  refine CutsOffAt.ahead_bind ?_
  cases cells with
  | cons c cs =>
    simp only [List.cons_append, List.take_succ_cons, List.take_zero, List.map_cons, List.map_nil]
    split
    · exact CutsOffAt.skip_bind (fun _ => Nat.succ_pos _) (drops_markedNumber _ start)
        ((cutsOff_markedNumber _ start).cut _)
    · exact (cutsOff_decimalNumber _).cut _
  | nil =>
    have hdecimal (first : Char) := (cutsOff_decimalNumber (t := t) first).cut []
    split
    · next b hb =>
      -- the letter would be taken
      obtain ⟨d, hd, hletter⟩ : ∃ d ∈ t.cells.head?, NumberBase.ofLetter? d.char = some b := by
        cases hcells : t.cells with
        | nil =>
          rw [hcells] at hb
          cases hb
        | cons d ds =>
          rw [hcells] at hb
          exact ⟨d, rfl, hb⟩
      intro hspares
      obtain ⟨-, hlength | hnil⟩ := hspares.drop_append (drops_markedNumber _ start) fun hbreak =>
        absurd (by rw [hletter]; rfl)
          (hbreak.head (q := fun c => (NumberBase.ofLetter? c).isSome) rfl hd)
      · cases hlength
      · rw [hnil] at hd
        cases hd
    · split
      · next b hletter _ => cases hletter
      · exact hdecimal _

theorem cutsOff_stringLiteral (quote : Char) (start : Position) :
    CutsOff t (stringLiteral quote start) := by
  refine ⟨drops_stringLiteral quote start, fun cells hspares => ?_⟩
  rw [stringLiteral_run] at hspares
  have hread : StringBody.read quote (cells ++ t.cells) =
      (StringBody.read quote cells).append t.cells := by
    refine StringBody.read_append (hspares.imp_right ?_)
    rintro ⟨a, s', hok, hsuffix⟩
    split at hok
    · next value rest hread =>
      cases hok
      exact ⟨value, rest, hread, hsuffix⟩
    · cases hok
  rw [stringLiteral_run, stringLiteral_run, CellSource.behind_cells, hread]
  cases StringBody.read quote cells <;> rfl

/-- A punctuator does not go on with a line break. -/
theorem length_le_of_breaks {p : Punctuator}
    (hp : p.spelling.toList <+: (cells ++ t.cells).map Cell.char) (hbreak : t.Breaks) :
    p.spelling.length ≤ cells.length := by
  rw [← String.length_toList]
  by_contra hlt
  rw [List.map_append] at hp
  obtain ⟨more, hmore⟩ := List.prefix_of_prefix_length_le (List.prefix_append ..) hp
    (by rw [List.length_map]; omega)
  cases more with
  | nil =>
    have hlength := congrArg List.length hmore
    rw [List.append_nil, List.length_map] at hlength
    omega
  | cons e more =>
    obtain ⟨k, hk⟩ := hp
    rw [← hmore, List.append_assoc, List.append_cancel_left_eq] at hk
    cases hcells : t.cells with
    | nil =>
      rw [hcells] at hk
      cases hk
    | cons d ds =>
      rw [hcells] at hk
      obtain ⟨rfl, -⟩ := List.cons.inj hk
      have hspecial : d.char ∈ p.spelling.toList := by simp [← hmore]
      have hd : d ∈ t.cells.head? := by rw [hcells]; rfl
      exact hbreak.head (q := fun c => !breaksLine c) rfl hd
        (by simp [(p.special d.char hspecial).2.2.2.2.2])

/-- **A lexeme is scanned alike where its source is cut off**, if it leaves alone what is not
there. -/
theorem cutsOffAt_lexeme (c : Cell) (cs : List Cell) (start : Position) :
    CutsOffAt t (c :: cs) (lexeme c.char start) (lexeme c.char start) := by
  have hpre : ((c :: cs).take 3).map Cell.char <+: ((c :: cs ++ t.cells).take 3).map Cell.char := by
    rw [List.take_append, List.map_append]
    exact List.prefix_append ..
  unfold lexeme
  refine CutsOffAt.ahead_bind ?_
  cases hlongest : Punctuator.longest? (((c :: cs ++ t.cells).take 3).map Cell.char) with
  | none =>
    rw [Punctuator.longest?_eq_none_of_prefix hlongest hpre]
    dsimp only
    split
    · exact ((CutsOff.takeWhile rfl).bind fun _ => CutsOff.pure).cut _
    have hrest : CutsOff t (do
        if c.char == '"' || c.char == '\'' then return Token.string (← stringLiteral c.char start)
        if c.char.isDigit then return Token.number (← number c.char start)
        failAt start (.unexpectedCharacter c.char)) := by
      split
      · exact (cutsOff_stringLiteral _ _).bind fun _ => CutsOff.pure
      split
      · exact (cutsOff_number _ _).bind fun _ => CutsOff.pure
      · exact CutsOff.failAt
    exact CutsOffAt.skip_bind (fun _ => Nat.succ_pos _) hrest.drops (hrest.cut _)
  | some p =>
    have hspelling : p.spelling.toList <+: (c :: cs ++ t.cells).map Cell.char :=
      (Punctuator.spelling_of_longest? hlongest).trans ((List.take_prefix 3 _).map Cell.char)
    have hn := length_le_of_breaks (t := t) hspelling
    intro hspares
    have hshort : Punctuator.longest? (((c :: cs).take 3).map Cell.char) = some p := by
      obtain ⟨-, hlength | hnil⟩ := hspares.drop_append Drops.pure hn
      · refine Punctuator.longest?_of_prefix hlongest hpre ?_
        rw [List.map_take, List.prefix_take_iff]
        refine ⟨?_, p.length_spelling_le⟩
        rw [List.map_append] at hspelling
        refine List.prefix_of_prefix_length_le hspelling (List.prefix_append ..) ?_
        rwa [String.length_toList, List.length_map]
      · rwa [hnil, List.append_nil] at hlongest
    rw [hshort]
    exact CutsOffAt.skip_bind hn Drops.pure CutsOffAt.pure hspares

/-- A lexeme takes its first cell at least, and what it leaves alone may be cut off. -/
theorem lexeme_cut {c : Cell} {cs : List Cell} {finish start : Position} {a : Token}
    (h : lexeme c.char start ⟨c :: cs, finish⟩ = .ok a (.behind cells t)) :
    ∃ more, cs = more ++ t.cells ∧ finish = t.finish ∧
      lexeme c.char start ⟨c :: more, t.position⟩ = .ok a ⟨cells, t.position⟩ := by
  have hpast := past_lexeme c cs finish start
  rw [left_of_ok h] at hpast
  obtain ⟨hfinish, ⟨taken, htaken⟩, hlt⟩ := hpast
  obtain rfl : t.finish = finish := hfinish
  obtain ⟨more, rfl⟩ : ∃ more, cs = more ++ t.cells := by
    cases taken with
    | nil => exact absurd (congrArg List.length htaken) (Nat.ne_of_lt hlt)
    | cons d taken =>
      obtain ⟨-, hcs⟩ := List.cons.inj htaken
      exact ⟨taken ++ cells, by rw [← hcs, List.append_assoc]; rfl⟩
  refine ⟨more, rfl, rfl, ?_⟩
  have hcut := cutsOffAt_lexeme (t := t) c more start (.inr ⟨a, _, h, List.suffix_append ..⟩)
  have hshort := past_lexeme c more t.position start
  cases hrun : lexeme c.char start ⟨c :: more, t.position⟩ with
  | error e s =>
    rw [hrun] at hcut
    cases h.symm.trans hcut
  | ok a' s =>
    rw [hrun] at hcut
    rw [left_of_ok hrun] at hshort
    obtain ⟨rfl, hbehind⟩ := EStateM.Result.ok.inj (h.symm.trans hcut)
    obtain ⟨cells', finish⟩ := s
    obtain rfl : cells = cells' := List.append_cancel_right (congrArg CellSource.cells hbehind)
    obtain rfl : finish = t.position := hshort.1
    rfl

end CellScan

end DrakeSyntax
