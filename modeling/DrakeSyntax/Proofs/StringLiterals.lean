import DrakeSyntax.Proofs.Cutting.Tokenize
import DrakeSyntax.Proofs.Spelling.Tokenize
import DrakeSyntax.Proofs.Streaming

/-!
# String literals are read exactly

Between its quotes a string literal is a sequence of units: characters that stand for themselves,
and characters behind a backslash (`StringUnit`). Behind an opening quote, a text either begins
with units and the same quote once more, or it does not; which of the two it is decides what the
first token of the text is (`TokenStream.next_string`).

* `units_iff`: the characters that units are written as, and those they stand for.
* `CellScan.token_quote`: behind a quote, the token is a string if the literal is closed.
-/

namespace DrakeSyntax

/-- A unit of a string literal. -/
inductive StringUnit where
  /-- A character that stands for itself. -/
  | plain (c : Char)
  /-- A character behind a backslash. -/
  | escape (c : Char)

namespace StringUnit

/-- How the unit is written. -/
def written : StringUnit → List Char
  | plain c => [c]
  | escape c => ['\\', c]

/-- The characters that stand for another one behind a backslash. -/
def controls : List (Char × Char) := [('n', '\n'), ('t', '\t'), ('r', '\r'), ('0', '\x00')]

/-- The character that the unit stands for. -/
def value : StringUnit → Char
  | plain c => c
  | escape c => (controls.lookup c).getD c

/-- The unit may stand between two quotes `q`. -/
def Fits (q : Char) : StringUnit → Prop
  | plain c => c ≠ q ∧ c ≠ '\\' ∧ c ≠ '\n' ∧ c ≠ '\r'
  | escape c => c ≠ '\n' ∧ c ≠ '\r'

theorem value_escape (c : Char) : (escape c).value = escaped c := by
  unfold escaped
  split
  · rfl
  · rfl
  · rfl
  · rfl
  · next hn ht hr h0 =>
    simp only [value, controls, List.lookup_cons, beq_false_of_ne hn, beq_false_of_ne ht,
      beq_false_of_ne hr, beq_false_of_ne h0]
    rfl

end StringUnit

variable {q : Char} {v w r : List Char}

theorem breaksLine_eq_false_iff {c : Char} : breaksLine c = false ↔ c ≠ '\n' ∧ c ≠ '\r' := by
  simp [breaksLine]

/-- What is written between two quotes is a sequence of units. -/
theorem units_iff : Units q v w ↔ ∃ us : List StringUnit, (∀ u ∈ us, u.Fits q) ∧
    w = us.flatMap StringUnit.written ∧ v = us.map StringUnit.value := by
  constructor
  · intro h
    induction h with
    | nil => exact ⟨[], List.forall_mem_nil _, rfl, rfl⟩
    | @plain c v w hline hquote hslash _ ih =>
      obtain ⟨us, hus, rfl, rfl⟩ := ih
      have hfits : (StringUnit.plain c).Fits q := ⟨hquote, hslash, breaksLine_eq_false_iff.1 hline⟩
      exact ⟨.plain c :: us, List.forall_mem_cons.2 ⟨hfits, hus⟩, rfl, rfl⟩
    | @escape c v w hline _ ih =>
      obtain ⟨us, hus, rfl, rfl⟩ := ih
      have hfits : (StringUnit.escape c).Fits q := breaksLine_eq_false_iff.1 hline
      refine ⟨.escape c :: us, List.forall_mem_cons.2 ⟨hfits, hus⟩, rfl, ?_⟩
      rw [List.map_cons, StringUnit.value_escape]
  · rintro ⟨us, hus, rfl, rfl⟩
    induction us with
    | nil => exact .nil
    | cons u us ih =>
      obtain ⟨hfits, hrest⟩ := List.forall_mem_cons.1 hus
      cases u with
      | plain c =>
        obtain ⟨hquote, hslash, hline⟩ := hfits
        exact .plain (breaksLine_eq_false_iff.2 hline) hquote hslash (ih hrest)
      | escape c =>
        rw [List.map_cons, StringUnit.value_escape]
        exact .escape (breaksLine_eq_false_iff.2 hfits) (ih hrest)

namespace CellScan

/-- Behind a quote, the token is a string if the literal is closed. -/
theorem token_quote (hq : q = '"' ∨ q = '\'') (p : Position) (s : CellSource) :
    token (.cons ⟨q, p⟩ s) =
      match StringBody.read q s.cells with
      | .closed value rest => .ok ⟨.string (String.ofList value), p⟩ ⟨rest, s.finish⟩
      | .unclosed rest => .error ⟨.unterminatedString, p⟩ ⟨rest, s.finish⟩ := by
  have hclear : Gap.Clear (⟨q, p⟩ :: s.cells) := by
    rcases hq with rfl | rfl <;> exact ⟨rfl, rfl, nofun⟩
  rw [CellSource.cons, token_of_clear hclear, lexeme_quote hq rfl]
  cases StringBody.read q s.cells <;> rfl

end CellScan

namespace CellSource

/-- Units and a quote are read up to the quote. -/
theorem read_of_units (hq : q = '"' ∨ q = '\'') (h : Units q v w) (p : Position)
    (k : List Char) : StringBody.read q (ofChars p (w ++ q :: k)).cells =
      .closed v (ofChars (p.along (w ++ [q])) k).cells ∧
        (ofChars p (w ++ q :: k)).finish = (ofChars (p.along (w ++ [q])) k).finish := by
  have hquote : breaksLine q = false := by rcases hq with rfl | rfl <;> rfl
  have hline : ∀ c ∈ w ++ [q], breaksLine c = false :=
    List.forall_mem_append.2 ⟨h.unbroken, List.forall_mem_singleton.2 hquote⟩
  have hlast : (w ++ [q]).getLast? = some '\r' → k.head? ≠ some '\n' := by
    rw [List.getLast?_append_of_ne_nil _ (List.cons_ne_nil _ _)]
    rintro ⟨rfl⟩
    cases hquote
  obtain ⟨hchars, hfinish⟩ := ofChars_inLine hline p
  have hcut := ofChars_append_of_getLast? hlast p
  rw [List.append_assoc, hfinish] at hcut
  obtain ⟨taken, last, htaken, hw, hone⟩ := List.map_eq_append_iff.1 hchars
  obtain ⟨c, rest, rfl, hc, hnil⟩ := List.map_eq_cons_iff.1 hone
  obtain rfl := List.map_eq_nil_iff.1 hnil
  rw [htaken] at hcut
  change ofChars p (w ++ q :: k) = _ at hcut
  rw [hcut, behind_cells, List.append_assoc]
  exact ⟨StringBody.read_of_units h (by rcases hq with rfl | rfl <;> decide) hw hc, rfl⟩

/-- A string literal that is closed was written by units and a quote. -/
theorem exists_units {p : Position} {rest : List Cell}
    (h : StringBody.read q (ofChars p r).cells = .closed v rest) :
    ∃ w k, Units q v w ∧ r = w ++ q :: k := by
  have hbody := StringBody.of_read q (ofChars p r).cells
  rw [h] at hbody
  obtain ⟨taken, c, hcells, hline, rfl, hunits⟩ := hbody
  have hshows : (ofChars p r).Shows p.offset r := ⟨p, rfl, rfl⟩
  have hcells : (ofChars p r).cells = (taken ++ [c]) ++ rest := by simpa using hcells
  obtain ⟨k, rfl, hr, -⟩ := hshows.drop hcells hline
  rw [List.map_append] at hr ⊢
  refine ⟨taken.map Cell.char, k, hunits fun h => hr (List.mem_append_left _ h), ?_⟩
  rw [List.append_assoc]
  rfl

end CellSource

namespace TokenStream

/-- **String literals are read exactly.** Behind a quote at the beginning of a text, either units
and the same quote follow, and then the first token is the string that the units stand for and
reading goes on behind the closing quote; or they do not, and then reading fails at the opening
quote. -/
theorem next_string (hq : q = '"' ∨ q = '\'') (r : List Char) :
    (∀ (us : List StringUnit) (k : List Char), (∀ u ∈ us, u.Fits q) →
      r = us.flatMap StringUnit.written ++ q :: k →
      next (ofString (String.ofList (q :: r))) =
        .ok ⟨.string (String.ofList (us.map StringUnit.value)), .start⟩
          (ofSource (.ofChars
            (Position.start.along (q :: (us.flatMap StringUnit.written ++ [q]))) k))) ∧
    ((¬ ∃ (us : List StringUnit) (k : List Char), (∀ u ∈ us, u.Fits q) ∧
        r = us.flatMap StringUnit.written ++ q :: k) →
      ∃ rest, next (ofString (String.ofList (q :: r))) =
        .error ⟨.unterminatedString, .start⟩ rest) := by
  have hline : breaksLine q = false := by rcases hq with rfl | rfl <;> rfl
  have hsource : ofString (String.ofList (q :: r)) = ofSource ⟨q :: r, .start⟩ := by
    rw [ofString, Source.ofString, String.toList_ofList]
    rfl
  have hcells : (⟨q :: r, .start⟩ : Source).asCells =
      .cons ⟨q, .start⟩ (.ofChars (Position.start.step q) r) := CellSource.ofChars_cons hline _ r
  have htoken := CellScan.token_quote hq .start (.ofChars (Position.start.step q) r)
  rw [← hcells] at htoken
  rw [hsource]
  constructor
  · rintro us k hus rfl
    have hunits := units_iff.2 ⟨us, hus, rfl, rfl⟩
    obtain ⟨hread, hfinish⟩ := CellSource.read_of_units hq hunits (Position.start.step q) k
    have hend : (⟨q :: (us.flatMap StringUnit.written ++ q :: k), .start⟩ : Source).asCells.finish =
        (CellSource.ofChars ((Position.start.step q).along
          (us.flatMap StringUnit.written ++ [q])) k).finish := by
      rw [hcells]
      exact hfinish
    rw [hread, hfinish] at htoken
    rw [Position.along_cons]
    refine standsAt_ofSource.next_of_ok (Scan.token_of_cells
      ⟨⟨q :: (us.flatMap StringUnit.written ++ [q]), ?_, ?_⟩, hend.symm⟩ htoken)
    · simp [Source.ofChars]
    · rw [← Position.along_cons]
      rfl
  · intro hnone
    cases hread : StringBody.read q (CellSource.ofChars (Position.start.step q) r).cells with
    | closed v rest =>
      obtain ⟨w, k, hunits, rfl⟩ := CellSource.exists_units hread
      obtain ⟨us, hus, rfl, -⟩ := units_iff.1 hunits
      exact absurd ⟨us, k, hus, rfl⟩ hnone
    | unclosed rest =>
      rw [hread] at htoken
      obtain ⟨s', hfails⟩ := Scan.token_of_cells_error htoken
      exact ⟨_, standsAt_ofSource.next_of_error hfails⟩

/-- An escaped quote, a control character and the other kind of quote, with a name behind; and a
backslash that takes the closing quote with it. -/
theorem next_string_escaped :
    next (ofString "'\\'\\n\"'x") = .ok ⟨.string "'\n\"", .start⟩
      (ofSource (.ofChars ⟨1, 8, 7⟩ ['x'])) ∧
    ∃ rest, next (ofString "'\\'") = .error ⟨.unterminatedString, .start⟩ rest := by
  have hquote : '\'' = '"' ∨ '\'' = '\'' := .inr rfl
  constructor
  · exact (next_string hquote _).1 [.escape '\'', .escape 'n', .plain '"'] ['x']
      (by simp [StringUnit.Fits]) rfl
  · refine (next_string hquote ['\\', '\'']).2 ?_
    rintro ⟨us, k, hus, hr⟩
    cases us with
    | nil => simp at hr
    | cons u us =>
      have hfits := hus u List.mem_cons_self
      cases u with
      | plain c => exact hfits.2.1 (List.cons.inj hr).1.symm
      | escape c => simp [StringUnit.written] at hr

end TokenStream

end DrakeSyntax
