import DrakeSyntax.Proofs.Cells

/-!
# Places in a text

A position marks a place of a text if its three numbers say where the place is. This is said of
the text alone, whatever it is read with:

* the offset is the number of bytes of a prefix of the text;
* the line is one more than the number of line breaks that end at or before the offset
  (`breakEnds`);
* the column is one more than the number of characters from the end of the last of these breaks
  to the offset.

`CellSource.within_ofString` says that the cells of a text have only such positions.
-/

namespace DrakeSyntax

/-- How many bytes a text takes. -/
def byteLength : List Char → Nat
  | [] => 0
  | c :: w => c.utf8Size + byteLength w

@[simp] theorem byteLength_nil : byteLength [] = 0 := rfl

@[simp] theorem byteLength_cons (c : Char) (w : List Char) :
    byteLength (c :: w) = c.utf8Size + byteLength w := rfl

@[simp] theorem byteLength_append (v w : List Char) :
    byteLength (v ++ w) = byteLength v + byteLength w := by
  induction v with
  | nil => rw [List.nil_append, byteLength_nil, Nat.zero_add]
  | cons c v ih => rw [List.cons_append, byteLength_cons, byteLength_cons, ih, Nat.add_assoc]

theorem byteLength_toList (text : String) : byteLength text.toList = text.utf8ByteSize := by
  have h (w : List Char) : byteLength w = (String.ofList w).utf8ByteSize := by
    induction w with
    | nil => rfl
    | cons c w ih =>
      rw [byteLength_cons, ih, String.ofList_cons, String.utf8ByteSize_append,
        String.utf8ByteSize_singleton]
  rw [h, String.ofList_toList]

/-- Whether a character breaks the line. -/
def breaksLine (c : Char) : Bool := c == '\n' || c == '\r'

/-- The offsets at which the line breaks of a text end, its first character having the offset
`offset`. A `\r` and the `\n` behind it are one break. -/
def breakEnds (offset : Nat) : List Char → List Nat
  | [] => []
  | '\r' :: '\n' :: cs => (offset + 2) :: breakEnds (offset + 2) cs
  | '\r' :: cs => (offset + 1) :: breakEnds (offset + 1) cs
  | '\n' :: cs => (offset + 1) :: breakEnds (offset + 1) cs
  | c :: cs => breakEnds (offset + c.utf8Size) cs

theorem lt_of_mem_breakEnds {offset e : Nat} {cs : List Char} (h : e ∈ breakEnds offset cs) :
    offset < e := by
  fun_induction breakEnds offset cs with
  | case1 => cases h
  | case2 offset cs ih | case3 offset cs hn ih | case4 offset cs ih =>
    rcases List.mem_cons.1 h with rfl | h
    · omega
    · have := ih h
      omega
  | case5 offset c cs hrn hr hn ih =>
    have := ih h
    omega

/-- The ends of the line breaks of a text that end at or before an offset. -/
def endsUpTo (text : List Char) (offset : Nat) : List Nat :=
  (breakEnds 0 text).filter (· ≤ offset)

theorem length_breakEnds_le (offset : Nat) (cs : List Char) :
    (breakEnds offset cs).length ≤ cs.length := by
  fun_induction breakEnds offset cs with
  | case1 => exact Nat.le_refl _
  | case2 | case3 | case4 =>
    simp only [List.length_cons]
    omega
  | case5 =>
    simp only [List.length_cons]
    omega

namespace Position

/-- **The position marks a place of the text**: what stands in front of the place is `before`,
up to the end of the last line break, and `line`. -/
def Marks (text : List Char) (p : Position) : Prop :=
  ∃ before line after, text = before ++ line ++ after ∧
    p.offset = byteLength (before ++ line) ∧
    p.line = 1 + (endsUpTo text p.offset).length ∧
    byteLength before = (endsUpTo text p.offset).getLast?.getD 0 ∧
    p.column = 1 + line.length

/-- Neither a line nor a column of a text is greater than one more than its characters. -/
theorem Marks.le_length {text : List Char} {p : Position} (h : p.Marks text) :
    p.line ≤ 1 + text.length ∧ p.column ≤ 1 + text.length := by
  obtain ⟨before, line, after, htext, -, hline, -, hcolumn⟩ := h
  have hends : (endsUpTo text p.offset).length ≤ text.length :=
    Nat.le_trans (List.length_filter_le _ _) (length_breakEnds_le 0 text)
  have hlength : text.length = before.length + (line.length + after.length) := by simp [htext]
  omega

/-- Reading the text up to `rest` ends at the position. The breaks crossed are the first ones of
the text and end at `ends`; `line` stands behind the last one. -/
def Reached (text : List Char) (p : Position) (rest : List Char) : Prop :=
  ∃ before line ends, text = before ++ line ++ rest ∧
    p.offset = byteLength (before ++ line) ∧
    p.line = 1 + ends.length ∧ p.column = 1 + line.length ∧
    breakEnds 0 text = ends ++ breakEnds p.offset rest ∧
    (∀ e ∈ ends, e ≤ p.offset) ∧ ends.getLast?.getD 0 = byteLength before

variable {text cs : List Char} {p : Position}

theorem Reached.start (text : List Char) : Reached text .start text :=
  ⟨[], [], [], rfl, rfl, rfl, rfl, rfl, by simp, rfl⟩

theorem Reached.step {c : Char} (h : Reached text p (c :: cs)) (hc : breaksLine c = false) :
    Reached text (p.step c) cs := by
  obtain ⟨before, line, ends, htext, hoff, hline, hcolumn, hends, hle, hlast⟩ := h
  refine ⟨before, line ++ [c], ends, by simp [htext], ?_, hline, ?_, ?_, ?_, hlast⟩
  · simp [Position.step, hoff, Nat.add_assoc]
  · simp [Position.step, hcolumn, Nat.add_assoc]
  · obtain ⟨hn, hr⟩ : c ≠ '\n' ∧ c ≠ '\r' := by simpa [breaksLine] using hc
    rw [hends, breakEnds]
    · rfl
    · rintro cs rfl
      exact absurd rfl hr
    · exact hr
    · exact hn
  · intro e he
    exact Nat.le_trans (hle e he) (Nat.le_add_right _ _)

/-- One more break, `br`, has been crossed. -/
theorem Reached.nextLine (br : List Char) (h : Reached text p (br ++ cs))
    (hbreak : breakEnds p.offset (br ++ cs) =
      (p.offset + byteLength br) :: breakEnds (p.offset + byteLength br) cs) :
    Reached text (p.nextLine (byteLength br)) cs := by
  obtain ⟨before, line, ends, htext, hoff, hline, hcolumn, hends, hle, hlast⟩ := h
  refine ⟨before ++ line ++ br, [], ends ++ [p.offset + byteLength br], by simp [htext], ?_, ?_,
    rfl, ?_, ?_, ?_⟩
  · simp [Position.nextLine, hoff, Nat.add_assoc]
  · simp [Position.nextLine, hline, Nat.add_assoc]
  · rw [hends, hbreak, List.append_assoc]
    rfl
  · intro e he
    rw [List.mem_append, List.mem_singleton] at he
    rcases he with he | rfl
    · exact Nat.le_trans (hle e he) (Nat.le_add_right _ _)
    · exact Nat.le_refl _
  · simp [hoff, Nat.add_assoc]

theorem Reached.marks (h : Reached text p cs) : p.Marks text := by
  obtain ⟨before, line, ends, htext, hoff, hline, hcolumn, hends, hle, hlast⟩ := h
  -- the breaks ahead end behind the place
  have hupto : endsUpTo text p.offset = ends := by
    rw [endsUpTo, hends, List.filter_append, List.filter_eq_self.2, List.filter_eq_nil_iff.2,
      List.append_nil]
    · intro e he
      have := lt_of_mem_breakEnds he
      simpa using this
    · intro e he
      simpa using hle e he
  refine ⟨before, line, cs, htext, hoff, ?_, ?_, hcolumn⟩
  · rw [hupto, hline]
  · rw [hupto, hlast]

end Position

/-- All positions of the source satisfy `P`. -/
def CellSource.Within (P : Position → Prop) (s : CellSource) : Prop :=
  (∀ c ∈ s.cells, P c.position) ∧ P s.finish

theorem CellSource.within_cons {P : Position → Prop} {c : Cell} {s : CellSource} (hc : P c.position)
    (hs : s.Within P) : (s.cons c).Within P := by
  refine ⟨?_, hs.2⟩
  intro d hd
  rcases List.mem_cons.1 hd with rfl | hd
  · exact hc
  · exact hs.1 d hd

/-- What is left of a text from a position that marks a place has only such positions. -/
theorem CellSource.within_ofChars {text cs : List Char} {p : Position}
    (h : Position.Reached text p cs) : (CellSource.ofChars p cs).Within (Position.Marks text) := by
  fun_induction CellSource.ofChars p cs with
  | case1 p =>
    refine ⟨?_, h.marks⟩
    intro c hc
    cases hc
  | case2 p cs ih =>
    exact within_cons h.marks (ih (Position.Reached.nextLine ['\r', '\n'] h rfl))
  | case3 p cs hn ih =>
    refine within_cons h.marks (ih ?_)
    exact Position.Reached.nextLine ['\r'] h (breakEnds.eq_3 _ _ hn)
  | case4 p cs ih =>
    exact within_cons h.marks (ih (Position.Reached.nextLine ['\n'] h rfl))
  | case5 p c cs hrn hr hn ih =>
    refine within_cons h.marks (ih (h.step ?_))
    simpa [breaksLine] using ⟨hn, hr⟩

/-- A text as a source has only positions that mark its places. -/
theorem CellSource.within_ofString (text : String) :
    (CellSource.ofString text).Within (Position.Marks text.toList) :=
  CellSource.within_ofChars (Position.Reached.start text.toList)

end DrakeSyntax
