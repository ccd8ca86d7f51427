/-!
# JSON

A JSON value keeps its keys in the order in which they are written. There are two
written forms: the compact one has no blanks, the pretty one puts every element of a
non-empty array or object on a line of its own.
-/

namespace DrakeSyntax

/-- A JSON value. Every number of the library is natural. -/
inductive Json where
  | null
  | boolean (b : Bool)
  | number (n : Nat)
  | string (s : String)
  | array (items : List Json)
  | object (fields : List (String × Json))
  deriving Inhabited

namespace Json

/-- A lowercase hexadecimal digit. -/
def hexDigit (n : Nat) : Char := Nat.digitChar (n % 16)

/-- How a character stands in a JSON string: the quote, the backslash and the characters
below U+0020 are escaped, every other one stands for itself. -/
def stringChar (c : Char) : List Char :=
  match c with
  | '"' => ['\\', '"']
  | '\\' => ['\\', '\\']
  | '\x08' => ['\\', 'b']
  | '\x0c' => ['\\', 'f']
  | '\n' => ['\\', 'n']
  | '\r' => ['\\', 'r']
  | '\t' => ['\\', 't']
  | c =>
    if c.toNat < 0x20 then ['\\', 'u', '0', '0', hexDigit (c.toNat / 16), hexDigit c.toNat]
    else [c]

/-- A JSON string. -/
def stringText (s : String) : String :=
  String.ofList ('"' :: s.toList.flatMap stringChar ++ ['"'])

/-- A key with the blanks that follow its colon. -/
def keyText (name blanks : String) : String := stringText name ++ ":" ++ blanks

mutual

/-- The compact form. Assumed is what JSON serializers document of it: no blanks between the parts, the
keys in the order of the fields, numbers in decimal, and in strings the short escapes where there are
any, `\u` escapes for the other control characters, and every other character as it is. -/
def compact : Json → String
  | null => "null"
  | boolean true => "true"
  | boolean false => "false"
  | number n => toString n
  | string s => stringText s
  | array items => "[" ++ ",".intercalate (compactItems items) ++ "]"
  | object fields => "\x7b" ++ ",".intercalate (compactFields fields) ++ "\x7d"

/-- The compact forms of the elements of an array. -/
def compactItems : List Json → List String
  | [] => []
  | j :: js => j.compact :: compactItems js

/-- The compact forms of the members of an object. -/
def compactFields : List (String × Json) → List String
  | [] => []
  | (name, j) :: fields => (keyText name "" ++ j.compact) :: compactFields fields

end

/-- The line break and the blanks in front of a line at a depth; a level is two blanks. -/
def lineStart (depth : Nat) : String := "\n" ++ String.ofList (List.replicate (2 * depth) ' ')

/-- A bracketed sequence whose elements, written one level below `depth`, stand on lines of
their own. An empty one stays closed. -/
def broken (opening closing : String) (depth : Nat) (elements : List String) : String :=
  if elements.isEmpty then opening ++ closing
  else opening ++ lineStart (depth + 1) ++ ("," ++ lineStart (depth + 1)).intercalate elements
    ++ lineStart depth ++ closing

mutual

/-- The pretty form of a value that starts on a line at a depth. -/
def prettyAt (depth : Nat) : Json → String
  | null => "null"
  | boolean true => "true"
  | boolean false => "false"
  | number n => toString n
  | string s => stringText s
  | array items => broken "[" "]" depth (prettyItems (depth + 1) items)
  | object fields => broken "\x7b" "\x7d" depth (prettyFields (depth + 1) fields)

/-- The pretty forms of the elements of an array. -/
def prettyItems (depth : Nat) : List Json → List String
  | [] => []
  | j :: js => j.prettyAt depth :: prettyItems depth js

/-- The pretty forms of the members of an object. -/
def prettyFields (depth : Nat) : List (String × Json) → List String
  | [] => []
  | (name, j) :: fields => (keyText name " " ++ j.prettyAt depth) :: prettyFields depth fields

end

/-- The pretty form. Assumed is what serializers document of it: the compact form with a blank behind
each colon and, in an array or object that is not empty, a line for each element, two blanks further
in than the line of the opening bracket; an empty one is closed at once. -/
def pretty (j : Json) : String := j.prettyAt 0

end Json

end DrakeSyntax
