import DrakeSyntax.Proofs.Layout.Gap
import DrakeSyntax.Report.Diagnostic
import Mathlib.Data.List.TakeWhile

/-!
# The line that a diagnostic shows

A diagnostic looks for its line in the text: it passes one line break after the other and takes what
stands in front of the next one (`Diagnostic.sourceLine`). It has not read the text before and knows
nothing of the counters of the scanner. That the two count lines alike is proved by way of the cells
of the text: the line that is found is what the cells have on the line of that number
(`Diagnostic.shownLine_eq`).
-/

namespace DrakeSyntax

namespace CellSource

/-- Lines only go on. -/
theorem le_line_ofChars (p : Position) (cs : List Char) {n : Nat} (hn : n ≤ p.line) :
    ∀ c ∈ (ofChars p cs).cells, n ≤ c.position.line := by
  have hcons {p : Position} {s : CellSource} (hp : n ≤ p.line) (c : Char)
      (hs : ∀ d ∈ s.cells, n ≤ d.position.line) :
      ∀ d ∈ (cons ⟨c, p⟩ s).cells, n ≤ d.position.line :=
    List.forall_mem_cons.2 ⟨hp, hs⟩
  fun_induction ofChars p cs with
  | case1 => exact List.forall_mem_nil _
  | case2 p cs ih | case3 p cs _ ih | case4 p cs ih =>
    exact hcons hn _ (ih (Nat.le_succ_of_le hn))
  | case5 p c cs _ _ _ ih => exact hcons hn _ (ih hn)

theorem lineChars_cons (c : Cell) (s : CellSource) (line : Nat) :
    (cons c s).lineChars line =
      if c.position.line = line ∧ c.isBreak = false then c.char :: s.lineChars line
      else s.lineChars line := by
  unfold lineChars cons
  by_cases h : c.position.line = line ∧ c.isBreak = false
  · simp [h]
  · rw [if_neg h, List.filter_cons_of_neg]
    simpa using h

/-- A cell of another line. -/
theorem lineChars_cons_of_ne {c : Cell} {s : CellSource} {line : Nat} (h : c.position.line ≠ line) :
    (cons c s).lineChars line = s.lineChars line := by
  rw [lineChars_cons, if_neg fun hc => h hc.1]

/-- What stands on a line behind a position of that line. -/
theorem lineChars_ofChars (p : Position) (cs : List Char) :
    (ofChars p cs).lineChars p.line = cs.takeWhile fun c => !breaksLine c := by
  -- behind a line break the line has nothing more
  have hbreak (p : Position) (cs : List Char) (width : Nat) :
      (cons ⟨'\n', p⟩ (ofChars (p.nextLine width) cs)).lineChars p.line = [] := by
    rw [lineChars_cons, if_neg (by simp [Cell.isBreak]), lineChars, List.map_eq_nil_iff,
      List.filter_eq_nil_iff]
    intro c hc
    have hline := le_line_ofChars (p.nextLine width) cs (Nat.le_refl _) c hc
    have hlt : p.line < c.position.line := hline
    simp [Nat.ne_of_gt hlt]
  fun_induction ofChars p cs with
  | case1 => rfl
  | case2 p cs | case3 p cs | case4 p cs => exact hbreak p cs _
  | case5 p c cs _ hr hn ih =>
    have hc : breaksLine c = false := by
      simp [breaksLine, show c ≠ '\r' from hr, show c ≠ '\n' from hn]
    have hcell : (⟨c, p⟩ : Cell).isBreak = false := beq_false_of_ne hn
    have hrest : (ofChars (p.step c) cs).lineChars p.line = cs.takeWhile fun c => !breaksLine c := ih
    rw [lineChars_cons, if_pos ⟨rfl, hcell⟩, hrest, List.takeWhile_cons_of_pos (by simp [hc])]

end CellSource

namespace Diagnostic

/-- A character that ends no line is passed. -/
theorem sourceLine_succ_cons {c : Char} (hc : endsLine c = false) (index : Nat) (cs : List Char) :
    sourceLine (index + 1) (c :: cs) = sourceLine (index + 1) cs := by
  rw [sourceLine, sourceLine, List.dropWhile_cons_of_pos (by rw [hc]; rfl)]

/-- A lone `\r` ends a line. -/
theorem sourceLine_succ_return (index : Nat) {cs : List Char}
    (hcs : ∀ ds : List Char, cs = '\n' :: ds → False) :
    sourceLine (index + 1) ('\r' :: cs) = sourceLine index cs := by
  rw [sourceLine, List.dropWhile_cons_of_neg (by decide)]
  split
  · contradiction
  · next rest h =>
    cases h
    exact absurd rfl (hcs rest)
  · next c rest _ h =>
    cases h
    rfl

/-- **Lines are found where the cells have them.** -/
theorem sourceLine_eq (index : Nat) (p : Position) (cs : List Char) :
    sourceLine index cs = (CellSource.ofChars p cs).lineChars (p.line + index) := by
  induction index generalizing p cs with
  | zero => exact (CellSource.lineChars_ofChars p cs).symm
  | succ index ih =>
    -- one line less is left to pass behind a line break, and the counters are one line further on
    have hbreak (p : Position) (cs : List Char) (width : Nat) : sourceLine index cs =
        (CellSource.cons ⟨'\n', p⟩ (.ofChars (p.nextLine width) cs)).lineChars
          (p.line + (index + 1)) := by
      have hne : p.line ≠ p.line + (index + 1) := by omega
      rw [CellSource.lineChars_cons_of_ne hne, ih (p.nextLine width) cs, Position.nextLine,
        Nat.add_right_comm, Nat.add_assoc]
    fun_induction CellSource.ofChars p cs with
    | case1 => rfl
    | case2 p cs => exact hbreak p cs 2
    | case3 p cs hn =>
      rw [sourceLine_succ_return index hn]
      exact hbreak p cs 1
    | case4 p cs => exact hbreak p cs 1
    | case5 p c cs _ hr hn ihrest =>
      have hc : endsLine c = false := by
        simp [endsLine, show c ≠ '\r' from hr, show c ≠ '\n' from hn]
      have hne : p.line ≠ p.line + (index + 1) := by omega
      rw [sourceLine_succ_cons hc, CellSource.lineChars_cons_of_ne hne]
      exact ihrest

/-- **The shown line is the one that the counters mean.** -/
theorem shownLine_eq (text : String) (p : Position) :
    shownLine text p = (CellSource.ofString text).lineChars (1 + (p.line - 1)) :=
  sourceLine_eq _ .start text.toList

end Diagnostic

end DrakeSyntax
