import DrakeSyntax.Error
import DrakeSyntax.Proofs.Cells

/-!
# Scanning cells

A scan of cells takes them from the front of a source. A scan that fails leaves the source where it
stopped, so that reading can go on from there.
-/

namespace DrakeSyntax

/-- A computation that reads cells and may fail. -/
abbrev CellScan := EStateM LexError CellSource

namespace CellScan

/-- Fails at the next cell. -/
def failHere (fault : LexFault) : CellScan α := fun s => .error ⟨fault, s.position⟩ s

/-- Fails at a given position. -/
def failAt (position : Position) (fault : LexFault) : CellScan α :=
  fun s => .error ⟨fault, position⟩ s

/-- Puts the cells that remain. -/
def setCells (cells : List Cell) : CellScan Unit := fun s => .ok () { s with cells }

/-- The next `n` characters, or as many as there are. -/
def ahead (n : Nat) : CellScan (List Char) := fun s => .ok ((s.cells.take n).map Cell.char) s

/-- Takes as many cells as given. -/
def skip (n : Nat) : CellScan Unit := fun s => .ok () { s with cells := s.cells.drop n }

/-- Takes the next character if it satisfies `p`. -/
def takeIf (p : Char → Bool) : CellScan (List Char) := fun s =>
  match s.cells with
  | c :: cs => if p c.char then .ok [c.char] { s with cells := cs } else .ok [] s
  | [] => .ok [] s

/-- Takes characters while they satisfy `p`. -/
def takeWhile (p : Char → Bool) : CellScan (List Char) := fun s =>
  .ok ((s.cells.takeWhile (p ·.char)).map Cell.char)
    { s with cells := s.cells.dropWhile (p ·.char) }

end CellScan

end DrakeSyntax
