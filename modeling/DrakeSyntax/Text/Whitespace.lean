import DrakeSyntax.Text.CharRange

/-!
# White space

White space is what separates words in any script (the Unicode property White_Space): blanks of
all widths and everything that ends a line.
-/

namespace DrakeSyntax.Text

/-- The white space characters. -/
def whitespaceRanges : List CharRange := [
    ⟨0x9, 0xd⟩, ⟨0x20, 0x20⟩, ⟨0x85, 0x85⟩, ⟨0xa0, 0xa0⟩, ⟨0x1680, 0x1680⟩, ⟨0x2000, 0x200a⟩,
    ⟨0x2028, 0x2029⟩, ⟨0x202f, 0x202f⟩, ⟨0x205f, 0x205f⟩, ⟨0x3000, 0x3000⟩
  ]

/-- Whether a character is white space. -/
def isWhitespace (c : Char) : Bool := inRanges whitespaceRanges c

/-- A text without the white space at its end. -/
def trimEnd (s : String) : String :=
  String.ofList (s.toList.reverse.dropWhile isWhitespace).reverse

end DrakeSyntax.Text
