import DrakeSyntax.Proofs.Coupling.Diagonal
import DrakeSyntax.Proofs.Place.Calls
import DrakeSyntax.Proofs.Placement
import DrakeSyntax.Proofs.ShownLine

/-!
# Diagnostics point at errors

A diagnostic shows the line of the text that an error lies on and a caret below the character at
the offset of the error (`Diagnostic.render_pointsAt`). That the shown line is the right one and the
caret stands in the right column is a property of the positions of a text
(`CellSource.onLine_ofString`): each lies behind as many characters of its line as its column says,
and the cells on its line are the characters of that line, which are those that a diagnostic finds
(`Diagnostic.shownLine_eq`).
-/

namespace DrakeSyntax

/-- The line of the text that the byte at the offset is on, or ends in front of it, is `left ++
right`, and `left` stands in front of the byte. No break is inside the line, one is in front of it
unless it is the first line, and one is behind it unless it is the last one. A `\r` and the `\n`
behind it are not taken apart. -/
structure LiesOn (text : List Char) (offset : Nat) (left right : List Char) : Prop where
  unbroken : ∀ c ∈ left ++ right, breaksLine c = false
  place : ∃ front back, text = front ++ (left ++ right) ++ back ∧
    offset = byteLength (front ++ left) ∧
    (∀ c ∈ front.getLast?, breaksLine c) ∧
    (front.getLast? = some '\r' → ((left ++ right) ++ back).head? ≠ some '\n') ∧
    ∀ c ∈ back.head?, breaksLine c

/-- The position lies on a line of the text, behind as many characters as its column says, and
these are the characters of the cells on the line of the position. -/
def Position.OnLine (text : List Char) (p : Position) : Prop :=
  1 ≤ p.line ∧ ∃ left right, LiesOn text p.offset left right ∧ p.column = 1 + left.length ∧
    (CellSource.ofChars .start text).lineChars p.line = left ++ right

namespace Position

/-- Reading the text up to `rest` ends at the position. Behind the last break crossed stands `left`,
which is what the cells that are `taken` have on the line of the position. -/
def ReadTo (text : List Char) (p : Position) (rest : List Char) : Prop :=
  ∃ front left taken, text = front ++ left ++ rest ∧ p.offset = byteLength (front ++ left) ∧
    1 ≤ p.line ∧ p.column = 1 + left.length ∧ (∀ c ∈ left, breaksLine c = false) ∧
    (∀ c ∈ front.getLast?, breaksLine c) ∧
    (front.getLast? = some '\r' → (left ++ rest).head? ≠ some '\n') ∧
    CellSource.ofChars .start text =
      ⟨taken ++ (CellSource.ofChars p rest).cells, (CellSource.ofChars p rest).finish⟩ ∧
    (∀ c ∈ taken, c.position.line ≤ p.line) ∧
    (taken.filter fun c => c.position.line == p.line && !c.isBreak).map Cell.char = left

variable {text rest : List Char} {p : Position}

theorem ReadTo.start (text : List Char) : ReadTo text .start text :=
  ⟨[], [], [], rfl, rfl, Nat.le_refl _, rfl, List.forall_mem_nil _, by simp, by simp, rfl,
    List.forall_mem_nil _, rfl⟩

theorem ReadTo.step {c : Char} (h : ReadTo text p (c :: rest)) (hc : breaksLine c = false) :
    ReadTo text (p.step c) rest := by
  obtain ⟨front, left, taken, htext, hoffset, hline, hcolumn, hleft, hfront, hwhole, hcells, hle,
    htaken⟩ := h
  have hcell : (⟨c, p⟩ : Cell).isBreak = false := by
    obtain ⟨hn, -⟩ : c ≠ '\n' ∧ c ≠ '\r' := by simpa [breaksLine] using hc
    exact beq_false_of_ne hn
  refine ⟨front, left ++ [c], taken ++ [⟨c, p⟩], by simp [htext], ?_, hline, ?_, ?_, hfront, ?_, ?_,
    ?_, ?_⟩
  · simp [Position.step, hoffset, Nat.add_assoc]
  · simp [Position.step, hcolumn, Nat.add_assoc]
  · exact List.forall_mem_append.2 ⟨hleft, List.forall_mem_singleton.2 hc⟩
  · simpa using hwhole
  · rw [hcells, CellSource.ofChars_cons hc]
    simp [CellSource.cons]
  · exact List.forall_mem_append.2 ⟨hle, List.forall_mem_singleton.2 (Nat.le_refl _)⟩
  · have hsame : (p.step c).line = p.line := rfl
    rw [List.filter_append, List.map_append, hsame, htaken]
    simp [hcell]

/-- One more break, `br`, has been crossed. It is one cell. -/
theorem ReadTo.nextLine (br : List Char) (h : ReadTo text p (br ++ rest))
    (hbreak : br.all breaksLine) (hne : br ≠ [])
    (hwhole : br.getLast? = some '\r' → rest.head? ≠ some '\n')
    (hread : CellSource.ofChars p (br ++ rest) =
      .cons ⟨'\n', p⟩ (CellSource.ofChars (p.nextLine (byteLength br)) rest)) :
    ReadTo text (p.nextLine (byteLength br)) rest := by
  obtain ⟨front, left, taken, htext, hoffset, hline, -, -, -, -, hcells, hle, -⟩ := h
  have hlast : (front ++ left ++ br).getLast? = br.getLast? := by
    rw [List.getLast?_append]
    cases hbr : br.getLast? with
    | none => exact absurd (List.getLast?_eq_none_iff.1 hbr) hne
    | some c => rfl
  refine ⟨front ++ left ++ br, [], taken ++ [⟨'\n', p⟩], by simp [htext], ?_, ?_, rfl,
    List.forall_mem_nil _, ?_, ?_, ?_, ?_, ?_⟩
  · simp [Position.nextLine, hoffset, Nat.add_assoc]
  · exact Nat.le_succ_of_le hline
  · rw [hlast]
    exact fun c hc => List.all_eq_true.1 hbreak c (List.mem_of_getLast? hc)
  · rw [hlast]
    exact hwhole
  · rw [hcells, hread]
    simp [CellSource.cons]
  · refine List.forall_mem_append.2 ⟨fun c hc => Nat.le_succ_of_le (hle c hc), ?_⟩
    exact List.forall_mem_singleton.2 (Nat.le_succ _)
  · -- all cells so far are on the lines above
    rw [List.map_eq_nil_iff, List.filter_eq_nil_iff]
    intro c hc
    have hlt : c.position.line ≠ p.line + 1 := by
      rcases List.mem_append.1 hc with hc | hc
      · have := hle c hc
        omega
      · rw [List.mem_singleton.1 hc]
        exact Nat.ne_of_lt (Nat.lt_succ_self _)
    simp [Position.nextLine, hlt]

theorem ReadTo.onLine (h : ReadTo text p rest) : p.OnLine text := by
  obtain ⟨front, left, taken, htext, hoffset, hline, hcolumn, hleft, hfront, hwhole, hcells, -,
    htaken⟩ := h
  let right := rest.takeWhile fun c => !breaksLine c
  let back := rest.dropWhile fun c => !breaksLine c
  have hrest : right ++ back = rest := List.takeWhile_append_dropWhile
  refine ⟨hline, left, right, ⟨?_, front, back, ?_, hoffset, hfront, ?_, ?_⟩, hcolumn, ?_⟩
  · refine List.forall_mem_append.2 ⟨hleft, ?_⟩
    intro c hc
    simpa using List.mem_takeWhile_imp hc
  · rw [htext, ← hrest]
    simp
  · rw [List.append_assoc, hrest]
    exact hwhole
  · intro c hc
    have hstop := List.head?_dropWhile_not (fun c => !breaksLine c) rest
    rw [show (rest.dropWhile fun c => !breaksLine c).head? = some c from hc] at hstop
    simpa using hstop
  · have hrun := CellSource.lineChars_ofChars p rest
    unfold CellSource.lineChars at hrun ⊢
    rw [hcells, List.filter_append, List.map_append, htaken, hrun]

end Position

/-- **A position of a source lies on a line of the text**, and the source has that line. -/
theorem CellSource.onLine_ofChars {text cs : List Char} {p : Position}
    (h : Position.ReadTo text p cs) : (CellSource.ofChars p cs).Within (Position.OnLine text) := by
  fun_induction CellSource.ofChars p cs with
  | case1 p => exact ⟨List.forall_mem_nil _, h.onLine⟩
  | case2 p cs ih =>
    exact within_cons h.onLine
      (ih (h.nextLine ['\r', '\n'] rfl (by decide) (fun hr => by cases hr) rfl))
  | case3 p cs hn ih =>
    refine within_cons h.onLine (ih (h.nextLine ['\r'] rfl (by decide) (fun _ => ?_) ?_))
    · -- a `\n` would belong to the same break
      intro hhead
      obtain ⟨ds, hds⟩ := List.head?_eq_some_iff.1 hhead
      exact hn ds hds
    · exact CellSource.ofChars.eq_3 p cs hn
  | case4 p cs ih =>
    exact within_cons h.onLine
      (ih (h.nextLine ['\n'] rfl (by decide) (fun hr => by cases hr) rfl))
  | case5 p c cs hrn hr hn ih =>
    refine within_cons h.onLine (ih (h.step ?_))
    simpa [breaksLine] using ⟨hn, hr⟩

theorem CellSource.onLine_ofString (text : String) :
    (CellSource.ofString text).Within (Position.OnLine text.toList) :=
  CellSource.onLine_ofChars (Position.ReadTo.start text.toList)

/-! ### Where errors are -/

/-- An error stands at a position of the text and is worded on one line. -/
theorem parse_fails {P : Position → Prop} {text : String} {e : SyntaxError}
    (hP : (CellSource.ofString text).Within P) (h : parse text = .error e) :
    P e.position ∧ OneLine e.summary := by
  cases htokens : tokenize text with
  | error e' =>
    rw [parse, htokens] at h
    cases h
    rw [tokenize_eq] at htokens
    obtain ⟨hposition, hshown⟩ := CellSource.takeUpTo_fails hP htokens
    exact ⟨hposition, hshown.oneLine⟩
  | ok ts =>
    rw [parse_of_tokenize htokens] at h
    cases hparse : parseTokens ts with
    | ok p =>
      rw [hparse] at h
      cases h
    | error e' =>
      rw [hparse] at h
      cases h
      obtain ⟨⟨t, ht, hposition, hfound⟩, hworded⟩ := raisedAt_of_parseTokens hparse
      rw [(endsInput_tokenize htokens).1.closeTokens_eq] at ht
      refine ⟨?_, hworded.oneLine ?_⟩
      · show P e'.position
        rw [hposition]
        rw [tokenize_eq] at htokens
        exact CellSource.takeUpTo_within hP htokens t ht
      · rw [hfound]
        exact oneLine_of_tokenize htokens t ht

/-! ### What a diagnostic shows -/

namespace Diagnostic

/-- **The text points at a line behind `left`.** It has five lines with a `\n` behind each. The
fourth one shows the line and its number, the fifth one has a single caret below the character
behind `left`, or below the end of the line. In front of the caret stands a tab exactly where the
line above has one. -/
def PointsAt (shown : String) (number : Nat) (left right : List Char) : Prop :=
  ∃ (lines : List (List Char)) (margin indent : List Char),
    shown.toList = lines.flatMap (· ++ ['\n']) ∧ lines.length = 5 ∧ (∀ l ∈ lines, '\n' ∉ l) ∧
    (∃ n, margin = List.replicate n ' ' ++ (toString number).toList ++ [' ', '|', ' ']) ∧
    lines[3]? = some (margin ++ left ++ right) ∧ lines[4]? = some (indent ++ ['^']) ∧
    indent.length = (margin ++ left).length ∧ '^' ∉ indent ∧
    ∀ i : Nat, indent[i]? = some '\t' ↔ (margin ++ left)[i]? = some '\t'

theorem toList_blanks (n : Nat) : (blanks n).toList = List.replicate n ' ' := String.toList_ofList

/-- A text without tabs may be put in front. -/
theorem tabs_append {v w left : List Char} (hlength : v.length = w.length) (hv : '\t' ∉ v)
    (hw : '\t' ∉ w) (i : Nat) :
    (v ++ left.map fun c => if c = '\t' then '\t' else ' ')[i]? = some '\t' ↔
      (w ++ left)[i]? = some '\t' := by
  by_cases hi : i < v.length
  · rw [List.getElem?_append_left hi, List.getElem?_append_left (hlength ▸ hi)]
    exact iff_of_false (fun h => hv (List.mem_of_getElem? h)) fun h => hw (List.mem_of_getElem? h)
  · rw [List.getElem?_append_right (by omega), List.getElem?_append_right (by omega), ← hlength,
      List.getElem?_map]
    cases left[i - v.length]? with
    | none => simp
    | some c => by_cases hc : c = '\t' <;> simp [hc]

theorem not_mem_toString {c : Char} (hc : c.isDigit = false) (n : Nat) :
    c ∉ (toString n).toList := by
  intro hmem
  have hrepr : (toString n).toList = Nat.toDigits 10 n := String.toList_ofList
  rw [hrepr] at hmem
  have hdigit := Nat.isDigit_of_mem_toDigits (by decide) (by decide) hmem
  rw [hc] at hdigit
  cases hdigit

theorem padding_eq {p : Position} {left right : List Char} (hcolumn : p.column = 1 + left.length) :
    padding (left ++ right) p = left.map fun c => if c = '\t' then '\t' else ' ' := by
  rw [padding, hcolumn, Nat.add_sub_cancel_left, List.take_left]

/-- The lines of a diagnostic on one line each. -/
theorem oneLine_lines {name text : String} {e : SyntaxError} (hname : OneLine name)
    (hsummary : OneLine e.summary) (hshown : '\n' ∉ shownLine text e.position) :
    ∀ l ∈ lines name text e, OneLine l := by
  have hblanks (n : Nat) : OneLine (blanks n) := .ofList fun h => by
    cases List.eq_of_mem_replicate h
  have hposition : OneLine e.position.text :=
    ((oneLine_toString _).append (by decide)).append (oneLine_toString _)
  have hpadding : '\n' ∉ padding (shownLine text e.position) e.position := by
    rw [padding, List.mem_map]
    rintro ⟨c, -, hc⟩
    split at hc <;> cases hc
  simp only [lines, List.forall_mem_cons, List.not_mem_nil, false_imp_iff, implies_true, and_true]
  refine ⟨?_, ?_, ?_, ?_, ?_⟩
  · exact (by decide : OneLine "error: ").append hsummary
  · exact ((((hblanks _).append (by decide)).append hname).append (by decide)).append hposition
  · exact (hblanks _).append (by decide)
  · exact (((hblanks _).append (oneLine_toString _)).append (by decide)).append (.ofList hshown)
  · exact (((hblanks _).append (by decide)).append (.ofList hpadding)).append (by decide)

/-- A diagnostic points at the place of its error. -/
theorem pointsAt_render {name text : String} {e : SyntaxError} {left right : List Char}
    (hname : OneLine name) (hsummary : OneLine e.summary)
    (hunbroken : ∀ c ∈ left ++ right, breaksLine c = false)
    (hshown : shownLine text e.position = left ++ right)
    (hcolumn : e.position.column = 1 + left.length) :
    PointsAt (render name text e) e.position.line left right := by
  have hlines : ∀ l ∈ lines name text e, OneLine l := by
    refine oneLine_lines hname hsummary ?_
    rw [hshown]
    exact fun hn => absurd (hunbroken _ hn) (by decide)
  let number := (toString e.position.line).toList
  let width := marginWidth e.position
  let margin := List.replicate (width - number.length) ' ' ++ number ++ [' ', '|', ' ']
  let blank := List.replicate width ' ' ++ [' ', '|', ' ']
  have hwidth : number.length ≤ width := by
    have hlength : number.length = (toString e.position.line).length := String.length_toList
    rw [hlength]
    exact Nat.le_max_right ..
  have hlength : blank.length = margin.length := by
    simp only [blank, margin, List.length_append, List.length_replicate]
    omega
  have hmargin : '\t' ∉ margin := by
    have hnumber : '\t' ∉ number := not_mem_toString rfl _
    simp [margin, hnumber]
  have hblank {c : Char} (hc : c ≠ ' ') (hbar : c ≠ '|') : c ∉ blank := by simp [blank, hc, hbar]
  refine ⟨(lines name text e).map String.toList, margin,
    blank ++ left.map fun c => if c = '\t' then '\t' else ' ', ?_, rfl, ?_, ⟨_, rfl⟩, ?_, ?_, ?_, ?_,
    tabs_append hlength (hblank (by decide) (by decide)) hmargin⟩
  · have hbreak (l : String) : (l ++ "\n").toList = l.toList ++ ['\n'] := by simp
    simp only [render, String.toList_join, List.flatMap_map, hbreak]
  · exact List.forall_mem_map.2 hlines
  · simp only [lines, hshown, List.map_cons, List.getElem?_cons_succ, List.getElem?_cons_zero,
      String.toList_append, toList_blanks, String.toList_ofList]
    rw [List.append_assoc margin]
    rfl
  · simp only [lines, hshown, padding_eq hcolumn, List.map_cons, List.getElem?_cons_succ,
      List.getElem?_cons_zero, String.toList_append, toList_blanks, String.toList_ofList]
    rfl
  · rw [@List.length_append _ blank, @List.length_append _ margin, List.length_map, hlength]
  · rw [List.mem_append, List.mem_map]
    rintro (hcaret | ⟨c, -, hc⟩)
    · exact hblank (by decide) (by decide) hcaret
    · split at hc <;> cases hc

end Diagnostic

/-- **A diagnostic points at the right place.** The position of an error marks a place of the text
and fits into 32 bits. The diagnostic shows the line on which the byte at its offset is, or ends in
front of it, with a caret below the character at the offset. -/
theorem Diagnostic.render_pointsAt {name text : String} {e : SyntaxError}
    (hlength : text.length < UInt32.size - 1) (hname : ∀ c ∈ name.toList, breaksLine c = false)
    (h : parse text = .error e) :
    e.position.Sound text ∧ ∃ left right, LiesOn text.toList e.position.offset left right ∧
      PointsAt (render name text e) e.position.line left right := by
  have hmarks := CellSource.within_ofString text
  have honLine := CellSource.onLine_ofString text
  obtain ⟨⟨hmark, hpos, left, right, hlies, hcolumn, hshown⟩, hsummary⟩ :=
    parse_fails (P := fun p => p.Marks text.toList ∧ p.OnLine text.toList)
      ⟨fun c hc => ⟨hmarks.1 c hc, honLine.1 c hc⟩, hmarks.2, honLine.2⟩ h
  refine ⟨hmark.sound hlength, left, right, hlies, ?_⟩
  refine pointsAt_render (.of_unbroken hname) hsummary hlies.unbroken ?_ hcolumn
  rw [shownLine_eq, Nat.add_sub_cancel' hpos]
  exact hshown

/-- A value is missing on a line that a tab indents. The tab is kept in front of the caret. -/
theorem Diagnostic.render_pointsAt_missing_value :
    render "main.dk" "a = 1\r\n\tb = )" (.parse ⟨⟨2, 6, 12⟩, ["expression"], "')'", none⟩) =
      "error: expected expression, found ')'\n  --> main.dk:2:6\n   |\n" ++
        " 2 | \tb = )\n   | \t    ^\n" ∧
    Position.Sound "a = 1\r\n\tb = )" ⟨2, 6, 12⟩ ∧
    ∃ left right, LiesOn "a = 1\r\n\tb = )".toList 12 left right ∧
      PointsAt (render "main.dk" "a = 1\r\n\tb = )"
        (.parse ⟨⟨2, 6, 12⟩, ["expression"], "')'", none⟩)) 2 left right := by
  have hparse : parse "a = 1\r\n\tb = )" =
      .error (.parse ⟨⟨2, 6, 12⟩, ["expression"], "')'", none⟩) := by
    have hfails : (match parse "a = 1\r\n\tb = )" with
        | .error e => some e
        | .ok _ => none) = some (.parse ⟨⟨2, 6, 12⟩, ["expression"], "')'", none⟩) := by
      decide +kernel
    split at hfails
    · next e he =>
      rw [he, Option.some.inj hfails]
    · cases hfails
  have hname : ∀ c ∈ "main.dk".toList, breaksLine c = false :=
    List.all_iff_forall_prop.1 (by decide)
  exact ⟨by decide, render_pointsAt (by decide) hname hparse⟩

end DrakeSyntax
