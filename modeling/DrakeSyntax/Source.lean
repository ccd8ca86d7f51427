import DrakeSyntax.Position

/-!
# Sources

A source is what is left of a text while it is read: the characters that are left, and counters
that say where the first of them stands. The counters are kept step by step. Each character that is
taken moves them on within its line (`Source.advance`), and a line break, which may be two
characters, sets them to the beginning of the next line (`Source.consumeLineBreak`).
-/

namespace DrakeSyntax

/-- Whether a character is a line break, or one half of one. -/
def isLineBreak (c : Char) : Bool := c == '\n' || c == '\r'

/-- A text, or what is left of one. -/
structure Source where
  /-- The characters that are left. -/
  chars : List Char
  /-- The counters: line, column and offset of the next character, or of the end. -/
  position : Position
  deriving DecidableEq

namespace Source

/-- The characters of a text whose first one has the position `p`. -/
def ofChars (p : Position) (cs : List Char) : Source := ⟨cs, p⟩

/-- A text as a source. -/
def ofString (text : String) : Source := ofChars .start text.toList

/-- Whether nothing is left. -/
def atEnd (s : Source) : Bool := s.chars.isEmpty

/-- The next character. At the end it is the null character. -/
def peek (s : Source) : Char := s.chars.headD '\x00'

/-- The character behind the next one, if there is one. -/
def peekNext? (s : Source) : Option Char := s.chars[1]?

/-- Takes a character. -/
def advance : Source → Source
  | ⟨[], p⟩ => ⟨[], p⟩
  | ⟨c :: cs, p⟩ => ⟨cs, p.step c⟩

/-- Takes a line break: `\n`, `\r\n` or a lone `\r`. -/
def consumeLineBreak (s : Source) : Source :=
  let t := s.advance
  let t := if s.peek == '\r' && t.peek == '\n' then t.advance else t
  ⟨t.chars, t.position.newLine⟩

/-! ### How much is left -/

variable {s : Source}

theorem length_advance_lt (h : ¬s.atEnd) : s.advance.chars.length < s.chars.length := by
  obtain ⟨_ | ⟨c, cs⟩, p⟩ := s
  · exact absurd rfl h
  · exact Nat.lt_succ_self _

theorem length_advance_le (s : Source) : s.advance.chars.length ≤ s.chars.length := by
  obtain ⟨_ | ⟨c, cs⟩, p⟩ := s
  · exact Nat.le_refl _
  · exact Nat.le_succ _

theorem length_consumeLineBreak_lt (h : ¬s.atEnd) :
    s.consumeLineBreak.chars.length < s.chars.length := by
  have hlt := length_advance_lt h
  simp only [consumeLineBreak]
  split
  · exact Nat.lt_of_le_of_lt (length_advance_le _) hlt
  · exact hlt

end Source

end DrakeSyntax
