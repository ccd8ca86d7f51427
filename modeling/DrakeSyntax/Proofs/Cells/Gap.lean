import DrakeSyntax.Proofs.Cells
import DrakeSyntax.Token.Gap

/-!
# Gaps in cells

Blanks, line breaks and comments separate tokens. A line comment runs to the end of its
line, a block comment to the next `*/` behind its own `/*`. A gap remembers the first line
break that it crosses, also one inside a block comment.
-/

namespace DrakeSyntax

/-- What the next character of a gap belongs to. -/
inductive GapState where
  | plain
  | lineComment
  /-- A block comment that began at `start`; `star` tells whether a `*` inside it came just
  before. -/
  | blockComment (start : Position) (star : Bool)

/-- The cells that a gap leaves over, and what was seen in it. -/
structure Gap where
  firstBreak : Option Position
  /-- The start of a block comment that does not end; nothing is left over then. -/
  openComment : Option Position
  rest : List Cell

/-- Skips a gap, `firstBreak` being the first line break already crossed. -/
def Gap.skip : GapState → Option Position → List Cell → Gap
  | .plain, firstBreak, [] => ⟨firstBreak, none, []⟩
  | .plain, firstBreak, c :: cs =>
    if isBlank c.char then skip .plain firstBreak cs
    else if c.isBreak then skip .plain (firstBreak <|> some c.position) cs
    else if c.char = '/' then
      match cs with
      | [] => ⟨firstBreak, none, [c]⟩
      | d :: ds =>
        if d.char = '/' then skip .lineComment firstBreak ds
        else if d.char = '*' then skip (.blockComment c.position false) firstBreak ds
        else ⟨firstBreak, none, c :: d :: ds⟩
    else ⟨firstBreak, none, c :: cs⟩
  | .lineComment, firstBreak, [] => ⟨firstBreak, none, []⟩
  | .lineComment, firstBreak, c :: cs =>
    if c.isBreak then skip .plain (firstBreak <|> some c.position) cs
    else skip .lineComment firstBreak cs
  | .blockComment start _, firstBreak, [] => ⟨firstBreak, some start, []⟩
  | .blockComment start star, firstBreak, c :: cs =>
    if c.isBreak then skip (.blockComment start false) (firstBreak <|> some c.position) cs
    else if star && c.char == '/' then skip .plain firstBreak cs
    else skip (.blockComment start (c.char == '*')) firstBreak cs

/-- The gap at the front of the cells. -/
def Gap.leading (cells : List Cell) : Gap := skip .plain none cells

end DrakeSyntax
