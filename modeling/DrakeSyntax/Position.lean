/-!
# Positions in a source text

A position names a character of a source text three ways: by line, by column and by
byte offset. Lines and columns count from one; a column counts characters, the offset
counts the bytes of the text's UTF-8 encoding.

* `Position.step` moves past a character inside a line.
* `Position.newLine` goes over to the next line.
-/

namespace DrakeSyntax

/-- A place in a source text. -/
structure Position where
  line : Nat
  column : Nat
  offset : Nat
  deriving DecidableEq

namespace Position

/-- The position of the first character of a text. -/
def start : Position := ⟨1, 1, 0⟩

instance : Inhabited Position := ⟨start⟩

/-- The position behind the character `c`, in the same line. -/
def step (p : Position) (c : Char) : Position :=
  ⟨p.line, p.column + 1, p.offset + c.utf8Size⟩

/-- The position when the line has ended. -/
def newLine (p : Position) : Position := ⟨p.line + 1, 1, p.offset⟩

/-- The position after a line break of `width` bytes. -/
def nextLine (p : Position) (width : Nat) : Position :=
  ⟨p.line + 1, 1, p.offset + width⟩

/-- Positions are compared by line, then by column, then by offset. -/
def ble (p q : Position) : Bool :=
  if p.line ≠ q.line then p.line < q.line
  else if p.column ≠ q.column then p.column < q.column
  else p.offset ≤ q.offset

/-- A position is written `line:column`. -/
def text (p : Position) : String := toString p.line ++ ":" ++ toString p.column

instance : ToString Position := ⟨text⟩

end Position

end DrakeSyntax
