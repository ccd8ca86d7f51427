import DrakeSyntax.Error
import DrakeSyntax.Source

/-!
# Scanning

A scan takes characters from the front of a source. A scan that fails leaves the source where it
stopped, so that reading can go on from there.
-/

namespace DrakeSyntax

/-- A computation that reads from a source and may fail. -/
abbrev Scan := EStateM LexError Source

namespace Scan

/-- Fails at the next character. -/
def failHere (fault : LexFault) : Scan α := fun s => .error ⟨fault, s.position⟩ s

/-- Fails at a given position. -/
def failAt (position : Position) (fault : LexFault) : Scan α :=
  fun s => .error ⟨fault, position⟩ s

/-- Whether nothing is left. -/
def atEnd : Scan Bool := fun s => .ok s.atEnd s

/-- The next character. At the end it is the null character. -/
def peek : Scan Char := fun s => .ok s.peek s

/-- The character behind the next one, if there is one. -/
def peekNext? : Scan (Option Char) := fun s => .ok s.peekNext? s

/-- The position of the next character, or of the end. -/
def position : Scan Position := fun s => .ok s.position s

/-- Takes the next character. -/
def advance : Scan Char := fun s => .ok s.peek s.advance

/-- Takes the next character if it is the expected one, and tells whether it is. -/
def matchChar (expected : Char) : Scan Bool := fun s =>
  if s.atEnd || s.peek != expected then .ok false s else .ok true s.advance

end Scan

end DrakeSyntax
