import DrakeSyntax.Proofs.Layout.Gap

/-!
# Cutting a source

A source is cut in front of one of its cells: some cells stand in front of what is left
(`CellSource.behind`). A text is cut wherever its source is, since a line break is one cell
(`CellSource.exists_cut`), and two texts are put together if the first one does not end in the middle
of a line break (`CellSource.ofChars_append_of_getLast?`).

* `CellSource.finish_offset_ofChars` and `CellSource.finish_line_ofChars` say where a text ends.
* `CellSource.ofChars_inLine` is a text that lies in one line.
-/

namespace DrakeSyntax

/-- The position behind some characters of the same line. -/
def Position.along (p : Position) (w : List Char) : Position :=
  ⟨p.line, p.column + w.length, p.offset + byteLength w⟩

theorem Position.along_cons (p : Position) (c : Char) (w : List Char) :
    p.along (c :: w) = (p.step c).along w := by
  simp only [along, step, List.length_cons, byteLength_cons, Position.mk.injEq, true_and]
  omega

namespace CellSource

/-- The source with some cells in front. -/
def behind (cells : List Cell) (t : CellSource) : CellSource := ⟨cells ++ t.cells, t.finish⟩

/-- The source begins with a line break. -/
def Breaks (t : CellSource) : Prop := ∃ c ∈ t.cells.head?, c.isBreak

variable {cells : List Cell} {p : Position} {s t : CellSource} {text v k w : List Char}

@[simp] theorem behind_cells (cells : List Cell) (t : CellSource) :
    (behind cells t).cells = cells ++ t.cells := rfl

@[simp] theorem behind_finish (cells : List Cell) (t : CellSource) :
    (behind cells t).finish = t.finish := rfl

theorem behind_append (cells more : List Cell) (t : CellSource) :
    behind (cells ++ more) t = behind cells (behind more t) := by
  simp only [behind, List.append_assoc]

theorem cons_eq_behind {c d : Cell} (h : cons d s = behind (c :: cells) t) :
    d = c ∧ s = behind cells t := by
  obtain ⟨hcells, hfinish⟩ := CellSource.mk.inj h
  obtain ⟨hc, hcells⟩ := List.cons.inj hcells
  obtain ⟨scells, sfinish⟩ := s
  exact ⟨hc, congrArg₂ CellSource.mk hcells hfinish⟩

/-- A source that is cut off begins where it began. -/
theorem position_behind (cells : List Cell) (t : CellSource) :
    (behind cells t).position = position ⟨cells, t.position⟩ := by
  cases cells <;> rfl

/-! ### Two texts -/

/-- The source of two texts, the first of which does not end inside a line break. -/
theorem ofChars_append_of_getLast? (hcut : v.getLast? = some '\r' → k.head? ≠ some '\n')
    (p : Position) : ofChars p (v ++ k) =
      behind (ofChars p v).cells (ofChars (ofChars p v).finish k) := by
  -- a `\r` in front of what is left may be the last character only if no `\n` follows
  have htail {c : Char} {cs : List Char}
      (h : (c :: cs).getLast? = some '\r' → k.head? ≠ some '\n') :
      cs.getLast? = some '\r' → k.head? ≠ some '\n' := by
    intro hlast
    refine h ?_
    rw [List.getLast?_cons, hlast]
    rfl
  fun_induction ofChars p v with
  | case1 p => rfl
  | case2 p cs ih =>
    have hrest := ih (htail (htail hcut))
    change cons _ (ofChars _ (cs ++ k)) = _
    rw [hrest]
    rfl
  | case3 p cs hn ih =>
    have hfirst : ∀ ds, cs ++ k = '\n' :: ds → False := by
      intro ds hds
      cases cs with
      | nil =>
        rw [List.nil_append] at hds
        exact hcut rfl (by rw [hds]; rfl)
      | cons c cs =>
        cases hds
        exact hn cs rfl
    have hrest := ih (htail hcut)
    rw [List.cons_append, ofChars.eq_3 _ _ hfirst, hrest]
    rfl
  | case4 p cs ih =>
    have hrest := ih (htail hcut)
    change cons _ (ofChars _ (cs ++ k)) = _
    rw [hrest]
    rfl
  | case5 p c cs hrn hr hn ih =>
    have hc : breaksLine c = false := by simpa [breaksLine] using ⟨hn, hr⟩
    have hrest := ih (htail hcut)
    rw [List.cons_append, ofChars_cons hc, hrest]
    rfl

/-- The text can be cut in front of the source `t`, with the given cells before it. -/
def CutAt (p : Position) (text : List Char) (cells : List Cell) (t : CellSource) : Prop :=
  ∃ pre k, text = pre ++ k ∧ ofChars p pre = ⟨cells, t.position⟩ ∧ ofChars t.position k = t

theorem cutAt_nil (h : ofChars p text = t) : CutAt p text [] t := by
  subst h
  rw [CutAt, position_ofChars]
  exact ⟨[], text, rfl, rfl, rfl⟩

/-- One more cell stands in front, which `br` is read as. -/
theorem CutAt.cons {q : Position} {cs : List Char} {c : Cell} (br : List Char)
    (h : CutAt q cs cells t) (hbr : ∀ pre, pre <+: cs → ofChars p (br ++ pre) =
      CellSource.cons c (ofChars q pre)) : CutAt p (br ++ cs) (c :: cells) t := by
  obtain ⟨pre, k, rfl, hpre, hk⟩ := h
  refine ⟨br ++ pre, k, (List.append_assoc ..).symm, ?_, hk⟩
  rw [hbr pre (List.prefix_append ..), hpre]
  rfl

/-- **A text is cut where its source is.** -/
theorem exists_cut (h : ofChars p text = behind cells t) : CutAt p text cells t := by
  induction cells generalizing p text with
  | nil => exact cutAt_nil h
  | cons c cells ih =>
    fun_cases ofChars p text with
    | case1 => cases congrArg CellSource.cells h
    | case2 cs =>
      obtain ⟨rfl, hrest⟩ := cons_eq_behind h
      exact (ih hrest).cons ['\r', '\n'] fun pre _ => rfl
    | case3 cs hn =>
      rw [ofChars.eq_3 _ _ hn] at h
      obtain ⟨rfl, hrest⟩ := cons_eq_behind h
      refine (ih hrest).cons ['\r'] fun pre hpre => ofChars.eq_3 _ _ ?_
      rintro ds rfl
      obtain ⟨k, rfl⟩ := hpre
      exact hn _ rfl
    | case4 cs =>
      obtain ⟨rfl, hrest⟩ := cons_eq_behind h
      exact (ih hrest).cons ['\n'] fun pre _ => rfl
    | case5 c cs hrn hr hn =>
      have hc : breaksLine c = false := by simpa [breaksLine] using ⟨hn, hr⟩
      rw [ofChars_cons hc] at h
      obtain ⟨rfl, hrest⟩ := cons_eq_behind h
      exact (ih hrest).cons [c] fun pre _ => ofChars_cons hc p pre

/-! ### Where a text ends -/

theorem finish_offset_ofChars (p : Position) (text : List Char) :
    (ofChars p text).finish.offset = p.offset + byteLength text := by
  fun_induction ofChars p text with
  | case1 => rfl
  | case2 p cs ih | case3 p cs hn ih | case4 p cs ih =>
    have hn : '\n'.utf8Size = 1 := rfl
    have hr : '\r'.utf8Size = 1 := rfl
    rw [cons, ih, Position.nextLine]
    simp only [byteLength_cons, hn, hr]
    omega
  | case5 p c cs hrn hr hn ih =>
    rw [cons, ih, Position.step, byteLength_cons, Nat.add_assoc]

theorem finish_line_ofChars (p : Position) (offset : Nat) (text : List Char) :
    (ofChars p text).finish.line = p.line + (breakEnds offset text).length := by
  fun_induction ofChars p text generalizing offset with
  | case1 => rfl
  | case2 p cs ih =>
    change (ofChars (p.nextLine 2) cs).finish.line = p.line + ((breakEnds _ cs).length + 1)
    rw [ih (offset + 2)]
    exact Nat.add_right_comm ..
  | case3 p cs hn ih =>
    rw [cons, ih (offset + 1), breakEnds.eq_3 _ _ hn, List.length_cons]
    exact Nat.add_right_comm ..
  | case4 p cs ih =>
    change (ofChars (p.nextLine 1) cs).finish.line = p.line + ((breakEnds _ cs).length + 1)
    rw [ih (offset + 1)]
    exact Nat.add_right_comm ..
  | case5 p c cs hrn hr hn ih =>
    rw [cons, ih (offset + c.utf8Size), breakEnds]
    · rfl
    · exact hrn
    · exact hr
    · exact hn

/-- Characters of one line are one cell each. -/
theorem ofChars_inLine (hw : ∀ c ∈ w, breaksLine c = false) (p : Position) :
    (ofChars p w).cells.map Cell.char = w ∧ (ofChars p w).finish = p.along w := by
  induction w generalizing p with
  | nil => exact ⟨rfl, rfl⟩
  | cons c w ih =>
    obtain ⟨hc, hw⟩ := List.forall_mem_cons.1 hw
    obtain ⟨hcells, hfinish⟩ := ih hw (p.step c)
    rw [ofChars_cons hc, Position.along_cons]
    exact ⟨congrArg (c :: ·) hcells, hfinish⟩

end CellSource

end DrakeSyntax
