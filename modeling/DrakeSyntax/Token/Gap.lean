import DrakeSyntax.Token.Scan

/-!
# Gaps between tokens

Blanks, line breaks and comments separate tokens. A line comment runs to the end of its line, a
block comment to the next `*/` behind its own `/*`. A gap remembers the first line break that it
crosses, also one inside a block comment.
-/

namespace DrakeSyntax

/-- Whether a character separates tokens within a line. -/
def isBlank (c : Char) : Bool := c == ' ' || c == '\t' || c == '\x0b' || c == '\x0c'

/-- Skips what is left of a line. -/
def Source.skipLine (s : Source) : Source :=
  if s.atEnd then s
  else if isLineBreak s.peek then s
  else s.advance.skipLine
termination_by s.chars.length
decreasing_by exact length_advance_lt ‹_›

theorem Source.length_skipLine_le (s : Source) : s.skipLine.chars.length ≤ s.chars.length := by
  fun_induction skipLine s with
  | case1 | case2 => exact Nat.le_refl _
  | case3 s _ _ ih => exact Nat.le_trans ih (length_advance_le s)

namespace Scan

/-- Skips a block comment that began at `start` from behind its `/*`; `firstBreak` is the first line
break that was crossed before. -/
def skipBlock (start : Position) (firstBreak : Option Position) (s : Source) :
    EStateM.Result LexError Source (Option Position) :=
  if s.atEnd then .error ⟨.unterminatedComment, start⟩ s
  else if s.peek == '*' && s.peekNext? == some '/' then .ok firstBreak s.advance.advance
  else if isLineBreak s.peek then
    skipBlock start (firstBreak <|> some s.position) s.consumeLineBreak
  else skipBlock start firstBreak s.advance
termination_by s.chars.length
decreasing_by
  · exact Source.length_consumeLineBreak_lt ‹_›
  · exact Source.length_advance_lt ‹_›

theorem length_skipBlock_le {start : Position} {firstBreak b : Option Position} {s s' : Source}
    (h : skipBlock start firstBreak s = .ok b s') : s'.chars.length ≤ s.chars.length := by
  fun_induction skipBlock start firstBreak s with
  | case1 => cases h
  | case2 =>
    cases h
    exact Nat.le_trans (Source.length_advance_le _) (Source.length_advance_le _)
  | case3 firstBreak s hend _ _ ih =>
    have hlt := Source.length_consumeLineBreak_lt hend
    exact Nat.le_trans (ih h) (Nat.le_of_lt hlt)
  | case4 firstBreak s hend _ _ ih => exact Nat.le_trans (ih h) (Source.length_advance_le s)

/-- Skips blanks, line breaks and comments; `firstBreak` is the first line break that was crossed
before. -/
def skipGap (firstBreak : Option Position) (s : Source) :
    EStateM.Result LexError Source (Option Position) :=
  if s.atEnd then .ok firstBreak s
  else if isBlank s.peek then skipGap firstBreak s.advance
  else if isLineBreak s.peek then
    skipGap (firstBreak <|> some s.position) s.consumeLineBreak
  else if s.peek == '/' && s.peekNext? == some '/' then skipGap firstBreak s.skipLine
  else if s.peek == '/' && s.peekNext? == some '*' then
    match _h : skipBlock s.position firstBreak s.advance.advance with
    | .ok b s' => skipGap b s'
    | .error e s' => .error e s'
  else .ok firstBreak s
termination_by s.chars.length
decreasing_by
  all_goals have hlt := Source.length_advance_lt ‹¬s.atEnd›
  · exact hlt
  · exact Source.length_consumeLineBreak_lt ‹_›
  · rw [Source.skipLine, if_neg ‹_›, if_neg ‹¬isLineBreak s.peek›]
    exact Nat.lt_of_le_of_lt (Source.length_skipLine_le _) hlt
  · exact Nat.lt_of_le_of_lt (Nat.le_trans (length_skipBlock_le _h) (Source.length_advance_le _)) hlt

/-- Skips the gap in front of a token and returns the first line break in it. -/
def gap : Scan (Option Position) := skipGap none

end Scan

end DrakeSyntax
