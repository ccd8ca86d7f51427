import DrakeSyntax.Token.Scan

/-!
# String literals

A string literal stands between two equal quotes on one line. A backslash takes the next
character with it: four letters name control characters, any other character is itself.
-/

namespace DrakeSyntax

/-- What a backslash followed by `c` stands for. -/
def escaped (c : Char) : Char :=
  match c with
  | 'n' => '\n'
  | 't' => '\t'
  | 'r' => '\r'
  | '0' => '\x00'
  | c => c

namespace Scan

/-- Scans a string literal, of which `value` has been read, up to its closing quote. The literal
begins at `start`. -/
def stringBody (quote : Char) (start : Position) (value : List Char) (s : Source) :
    EStateM.Result LexError Source (List Char) :=
  if s.atEnd then failAt start .unterminatedString s
  else if isLineBreak s.peek then failAt start .unterminatedString s
  else
    let t := s.advance
    if s.peek == quote then .ok value t
    else if s.peek != '\\' then stringBody quote start (value ++ [s.peek]) t
    else if t.atEnd || isLineBreak t.peek then failAt start .unterminatedString t
    else stringBody quote start (value ++ [escaped t.peek]) t.advance
termination_by s.chars.length
decreasing_by
  · exact Source.length_advance_lt ‹_›
  · exact Nat.lt_of_le_of_lt (Source.length_advance_le _) (Source.length_advance_lt ‹¬s.atEnd›)

/-- Scans a string literal whose opening quote, at `start`, has been taken. -/
def stringLiteral (quote : Char) (start : Position) : Scan String :=
  String.ofList <$> stringBody quote start []

end Scan

end DrakeSyntax
