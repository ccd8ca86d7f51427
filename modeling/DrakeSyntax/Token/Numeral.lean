import DrakeSyntax.Text.Alphanumeric
import DrakeSyntax.Token.Scan

/-!
# Scanning number literals

A literal with the mark of a base is that mark and a run of digits. A decimal literal is a
run of digits, perhaps a fraction, perhaps an exponent and perhaps an imaginary suffix; a
point belongs to it only when a digit follows, so that `1..5` begins with `1`. Within a run
a single separator may stand between two digits. No literal touches a letter, a digit or a
separator behind it.

The scans add what they find to the `text` that was found before.
-/

namespace DrakeSyntax.Scan

/-- Fails at a character that is no digit of the base. -/
def invalidDigit (b : NumberBase) : Scan α := fun s => failHere (.invalidDigit s.peek b) s

/-- Scans a run of digits. `afterDigit` says whether a separator may come first. -/
def digitRun (b : NumberBase) (text : List Char) (afterDigit : Bool) (s : Source) :
    EStateM.Result LexError Source (List Char) :=
  if s.atEnd then .ok text s
  else if b.accepts s.peek then digitRun b (text ++ [s.peek]) true s.advance
  else if s.peek == '_' then
    if !afterDigit || !s.peekNext?.any b.accepts then failHere .misplacedSeparator s
    else digitRun b text false s.advance
  else .ok text s
termination_by s.chars.length
decreasing_by
  · exact Source.length_advance_lt ‹_›
  · exact Source.length_advance_lt ‹_›

/-- Scans a run of digits. `afterDigit` says whether a separator may come first. -/
def digits (b : NumberBase) (text : List Char) (afterDigit : Bool) : Scan (List Char) :=
  digitRun b text afterDigit

/-- Fails if the next character touches a literal of the base. -/
def endNumber (b : NumberBase) : Scan Unit := do
  let c ← peek
  if !(← atEnd) && (Text.isAlphanumeric c || c == '_') then invalidDigit b

/-- Scans the digits behind the mark of a base; the literal begins at `start`. -/
def markedNumber (b : NumberBase) (start : Position) : Scan NumberLiteral := do
  let ds ← digits b [] true
  if ds.isEmpty then
    if (← peek).isAlphanum then invalidDigit b
    failAt start (.missingDigits b)
  endNumber b
  return ⟨String.ofList ds, b⟩

/-- Scans the fraction of a decimal literal, if there is one. -/
def fraction (text : List Char) : Scan (List Char) := do
  if (← peek) == '.' && (← peekNext?).any Char.isDigit then
    digits .decimal (text ++ [← advance]) false
  else return text

/-- Scans the sign of an exponent, if there is one. -/
def sign (text : List Char) : Scan (List Char) := do
  let c ← peek
  if c == '+' || c == '-' then return text ++ [← advance] else return text

/-- Scans the exponent of a decimal literal, if there is one. -/
def exponent (text : List Char) : Scan (List Char) := do
  let c ← peek
  if c == 'e' || c == 'E' then
    let text ← sign (text ++ [← advance])
    if !(← peek).isDigit || (← atEnd) then failHere .missingExponent
    digits .decimal text false
  else return text

/-- Scans the imaginary suffix of a decimal literal, if there is one. -/
def imaginary (text : List Char) : Scan (List Char) := do
  let c ← peek
  if c == 'j' || c == 'J' then return text ++ [← advance] else return text

/-- Scans what follows the first digit of a decimal literal. -/
def decimalNumber (first : Char) : Scan NumberLiteral := do
  let text ← digits .decimal [first] true
  let text ← fraction text
  let text ← exponent text
  let text ← imaginary text
  endNumber .decimal
  return ⟨String.ofList text, .decimal⟩

/-- Scans what follows the first digit of a literal that begins at `start`. -/
def number (first : Char) (start : Position) : Scan NumberLiteral := do
  if first == '0' then
    match NumberBase.ofLetter? (← peek) with
    | some b =>
      discard advance
      markedNumber b start
    | none => decimalNumber first
  else decimalNumber first

end DrakeSyntax.Scan
