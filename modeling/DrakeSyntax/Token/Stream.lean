import DrakeSyntax.Token.Gap
import DrakeSyntax.Token.Numeral
import DrakeSyntax.Token.StringLiteral

/-!
# Token streams

A token stream reads a source one token at a time and can look one token ahead. After an
error it goes on from where the failing scan stopped; at the end of its source it hands out
the end token again and again.

* `TokenStream.next` and `TokenStream.peek` read a token, the second without taking it.
* `TokenStream.rest` reads everything that is left.
* `tokenize` reads a whole text.
-/

namespace DrakeSyntax

/-- Whether a name or a keyword can begin with the character. -/
def isWordStart (c : Char) : Bool := c.isAlpha || c == '_'

/-- Whether a name or a keyword can go on with the character. -/
def isWordChar (c : Char) : Bool := c.isAlphanum || c == '_'

/-- The token that a word stands for. -/
def Token.ofWord (word : String) : Token :=
  match Keyword.ofWord? word with
  | some k => .keyword k
  | none => .identifier word

namespace Scan

/-- Scans the rest of a word that begins with `name`. -/
def wordRest (name : List Char) (s : Source) : EStateM.Result LexError Source (List Char) :=
  if s.atEnd then .ok name s
  else if isWordChar s.peek then wordRest (name ++ [s.peek]) s.advance
  else .ok name s
termination_by s.chars.length
decreasing_by exact Source.length_advance_lt ‹_›

/-- Scans a word whose first character has been taken. -/
def word (first : Char) : Scan Token := do
  return .ofWord (String.ofList (← wordRest [first]))

/-- The punctuator `assigned` if an equals sign follows, else `plain`. -/
def withEqual (plain assigned : Punctuator) : Scan Token := do
  if ← matchChar '=' then return .punctuator assigned else return .punctuator plain

/-- Scans the token that begins with the character `c`, which has been taken, at `start`. -/
def lexemeFrom (c : Char) (start : Position) : Scan Token := do
  match c with
  | '(' => return .punctuator .leftParen
  | ')' => return .punctuator .rightParen
  | '[' => return .punctuator .leftBracket
  | ']' => return .punctuator .rightBracket
  | '\x7b' => return .punctuator .leftBrace
  | '\x7d' => return .punctuator .rightBrace
  | ',' => return .punctuator .comma
  | ':' => return .punctuator .colon
  | '.' => if ← matchChar '.' then return .punctuator .dotDot else return .punctuator .dot
  | '-' => if ← matchChar '>' then return .punctuator .arrow else withEqual .minus .minusEqual
  | '*' =>
    if ← matchChar '*' then withEqual .starStar .starStarEqual else withEqual .star .starEqual
  | '<' =>
    if ← matchChar '<' then withEqual .lessLess .lessLessEqual else withEqual .less .lessEqual
  | '>' =>
    if ← matchChar '>' then withEqual .greaterGreater .greaterGreaterEqual
    else withEqual .greater .greaterEqual
  | '+' => withEqual .plus .plusEqual
  | '/' => withEqual .slash .slashEqual
  | '%' => withEqual .percent .percentEqual
  | '&' => withEqual .ampersand .ampersandEqual
  | '|' => withEqual .bar .barEqual
  | '^' => withEqual .caret .caretEqual
  | '=' => withEqual .assign .equalEqual
  | '!' => withEqual .exclamation .notEqual
  | '"' | '\'' => return .string (← stringLiteral c start)
  | c =>
    if c.isDigit then return .number (← number c start)
    else if isWordStart c then word c
    else failAt start (.unexpectedCharacter c)

/-- Scans one token with the gap before it. Line breaks in the gap are the token. -/
def token : Scan PlacedToken := do
  match ← gap with
  | some position => return ⟨.newline, position⟩
  | none =>
    let start ← position
    if ← atEnd then return ⟨.endOfInput, start⟩
    return ⟨← lexemeFrom (← advance) start, start⟩

end Scan

/-- A source that is being read, and a token that was looked at but not taken. -/
structure TokenStream where
  source : Source
  ahead : Option PlacedToken

namespace TokenStream

/-- The stream at the beginning of a source. -/
def ofSource (s : Source) : TokenStream := ⟨s, none⟩

/-- The stream at the beginning of a text. -/
def ofString (text : String) : TokenStream := ofSource (.ofString text)

/-- Takes the next token. -/
def next : EStateM LexError TokenStream PlacedToken := fun s =>
  match s.ahead with
  | some t => .ok t ⟨s.source, none⟩
  | none =>
    match Scan.token s.source with
    | .ok t rest => .ok t ⟨rest, none⟩
    | .error e rest => .error e ⟨rest, none⟩

/-- Looks at the next token. -/
def peek : EStateM LexError TokenStream PlacedToken := do
  let t ← next
  modify fun s => ⟨s.source, some t⟩
  return t

/-- Takes at most `bound` tokens, ending with the end token. -/
def takeUpTo : Nat → TokenStream → Except LexError (List PlacedToken)
  | 0, _ => .ok []
  | bound + 1, s =>
    match next s with
    | .error e _ => .error e
    | .ok t rest =>
      if t.token = .endOfInput then .ok [t] else (takeUpTo bound rest).map (t :: ·)

/-- All tokens that are left, ending with the end token. A token takes at least one character;
the bound has room for a token that was looked at and for the end token. -/
def rest (s : TokenStream) : Except LexError (List PlacedToken) :=
  s.takeUpTo (s.source.chars.length + 2)

end TokenStream

/-- The tokens of a text, ending with the end token. -/
def tokenize (text : String) : Except LexError (List PlacedToken) :=
  (TokenStream.ofString text).rest

end DrakeSyntax
