import DrakeSyntax.Proofs.Cells.Scan
import DrakeSyntax.Text.Alphanumeric

/-!
# Number literals in cells

A literal with the mark of a base is that mark and a run of digits. A decimal literal is a
run of digits, perhaps a fraction, perhaps an exponent and perhaps an imaginary suffix; a
point belongs to it only when a digit follows, so that `1..5` begins with `1`. Within a run
a single separator may stand between two digits. No literal touches a letter, a digit or a
separator behind it.
-/

namespace DrakeSyntax

/-- The digits at the front of some cells. -/
structure DigitRun where
  digits : List Char
  /-- Whether the run ends at a separator that does not stand between two digits. -/
  misplaced : Bool
  rest : List Cell

namespace DigitRun

/-- One more digit in front. -/
def cons (c : Char) (r : DigitRun) : DigitRun := { r with digits := c :: r.digits }

/-- Whether the first of the cells is a digit of the base. -/
def startsWithDigit (b : NumberBase) (cells : List Cell) : Bool :=
  cells.head?.any (b.accepts ·.char)

/-- Reads a run of digits. `afterDigit` says whether a separator may come first. -/
def read (b : NumberBase) : Bool → List Cell → DigitRun
  | _, [] => ⟨[], false, []⟩
  | afterDigit, c :: cs =>
    if b.accepts c.char then (read b true cs).cons c.char
    else if c.char = '_' then
      if afterDigit && startsWithDigit b cs then read b false cs else ⟨[], true, c :: cs⟩
    else ⟨[], false, c :: cs⟩

end DigitRun

namespace CellScan

/-- Scans a run of digits. -/
def digits (b : NumberBase) (afterDigit : Bool) : CellScan (List Char) := do
  let run := DigitRun.read b afterDigit (← get).cells
  setCells run.rest
  if run.misplaced then failHere .misplacedSeparator else return run.digits

/-- Fails if the next character touches a literal of the base. -/
def endNumber (b : NumberBase) : CellScan Unit := do
  match ← ahead 1 with
  | c :: _ => if Text.isAlphanumeric c || c == '_' then failHere (.invalidDigit c b)
  | [] => return

/-- Scans the digits behind the mark of a base; the literal begins at `start`. -/
def markedNumber (b : NumberBase) (start : Position) : CellScan NumberLiteral := do
  let ds ← digits b true
  if ds.isEmpty then
    match ← ahead 1 with
    | c :: _ => if c.isAlphanum then failHere (.invalidDigit c b)
    | [] => pure ()
    failAt start (.missingDigits b)
  endNumber b
  return ⟨String.ofList ds, b⟩

/-- Scans the fraction of a decimal literal, if there is one. -/
def fraction : CellScan (List Char) := do
  match ← ahead 2 with
  | '.' :: c :: _ =>
    if c.isDigit then
      skip 1
      return '.' :: (← digits .decimal false)
    else return []
  | _ => return []

/-- Scans the exponent of a decimal literal, if there is one. -/
def exponent : CellScan (List Char) := do
  let mark ← takeIf fun c => c == 'e' || c == 'E'
  if mark.isEmpty then return []
  let sign ← takeIf fun c => c == '+' || c == '-'
  match ← ahead 1 with
  | c :: _ => if !c.isDigit then failHere .missingExponent
  | [] => failHere .missingExponent
  return mark ++ sign ++ (← digits .decimal false)

/-- Scans what follows the first digit of a decimal literal. -/
def decimalNumber (first : Char) : CellScan NumberLiteral := do
  let whole ← digits .decimal true
  let fraction ← fraction
  let exponent ← exponent
  let imaginary ← takeIf fun c => c == 'j' || c == 'J'
  endNumber .decimal
  return ⟨String.ofList (first :: whole ++ fraction ++ exponent ++ imaginary), .decimal⟩

/-- Scans what follows the first digit of a literal that begins at `start`. -/
def number (first : Char) (start : Position) : CellScan NumberLiteral := do
  match first, (← ahead 1).head?.bind NumberBase.ofLetter? with
  | '0', some b =>
    skip 1
    markedNumber b start
  | _, _ => decimalNumber first

end CellScan

end DrakeSyntax
