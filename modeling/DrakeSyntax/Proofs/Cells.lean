import DrakeSyntax.Position

/-!
# Texts as cells

The cells of a text are its characters with their positions, all worked out before anything is
read. A line break is one cell however it is written (`\n`, `\r\n` or a lone `\r`), so nothing
that reads cells can tell the three apart. What is left of a text while it is being read is again
some cells and the position of the end.

Cells are a view of a text to reason about. The scanner reads characters and counts; that it comes
to the same is proved for each of its scans, which has a counterpart that reads cells.
-/

namespace DrakeSyntax

/-- A character of a text and its position. Every line break has the character `\n`. -/
structure Cell where
  char : Char
  position : Position
  deriving DecidableEq

/-- Whether the cell is a line break. -/
def Cell.isBreak (c : Cell) : Bool := c.char == '\n'

/-- The cells of a text, or of what is left of one. -/
structure CellSource where
  cells : List Cell
  /-- The position behind the last cell. -/
  finish : Position
  deriving DecidableEq

namespace CellSource

/-- One more cell in front. -/
def cons (c : Cell) (s : CellSource) : CellSource := ⟨c :: s.cells, s.finish⟩

/-- The cells of a text whose first character has the position `p`. -/
def ofChars (p : Position) : List Char → CellSource
  | [] => ⟨[], p⟩
  | '\r' :: '\n' :: cs => cons ⟨'\n', p⟩ (ofChars (p.nextLine 2) cs)
  | '\r' :: cs => cons ⟨'\n', p⟩ (ofChars (p.nextLine 1) cs)
  | '\n' :: cs => cons ⟨'\n', p⟩ (ofChars (p.nextLine 1) cs)
  | c :: cs => cons ⟨c, p⟩ (ofChars (p.step c) cs)

/-- The cells of a text. -/
def ofString (text : String) : CellSource := ofChars .start text.toList

/-- The position of the next cell, or of the end. -/
def position (s : CellSource) : Position :=
  match s.cells with
  | [] => s.finish
  | c :: _ => c.position

/-- The characters of a line, without the break that ends it. -/
def lineChars (s : CellSource) (line : Nat) : List Char :=
  (s.cells.filter fun c => c.position.line == line && !c.isBreak).map Cell.char

end CellSource

end DrakeSyntax
