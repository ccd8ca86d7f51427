/-!
# Number literals

A literal keeps its digits as text, without the mark of its base and without separators.
Only a decimal literal can hold more than digits: a fraction, an exponent and an imaginary
suffix.

* `NumberLiteral.isInteger` says whether there is nothing but digits.
* `NumberLiteral.integer?` is the value of such a literal.
-/

namespace DrakeSyntax

/-- The base in which a number is written. -/
inductive NumberBase where
  | binary | octal | hexadecimal | decimal
  deriving DecidableEq

namespace NumberBase

/-- How many digits the base has. -/
def radix : NumberBase → Nat
  | binary => 2
  | octal => 8
  | hexadecimal => 16
  | decimal => 10

/-- The word for the base. -/
def word : NumberBase → String
  | binary => "binary"
  | octal => "octal"
  | hexadecimal => "hexadecimal"
  | decimal => "decimal"

/-- The name of the base as a value. -/
def name (b : NumberBase) : String := b.word.capitalize

/-- What is written in front of the digits. -/
def mark : NumberBase → String
  | binary => "0b"
  | octal => "0o"
  | hexadecimal => "0x"
  | decimal => ""

/-- The base that a letter behind a leading zero announces. -/
def ofLetter? : Char → Option NumberBase
  | 'b' => some binary
  | 'o' => some octal
  | 'x' => some hexadecimal
  | _ => none

/-- The value of a character as a digit of a base up to 36. -/
def digitValue? (c : Char) : Option Nat :=
  if c.isDigit then some (c.toNat - '0'.toNat)
  else if c.isLower then some (c.toNat - 'a'.toNat + 10)
  else if c.isUpper then some (c.toNat - 'A'.toNat + 10)
  else none

/-- The value of a character as a digit of the base. -/
def digit? (b : NumberBase) (c : Char) : Option Nat :=
  (digitValue? c).filter (· < b.radix)

/-- Whether a character is a digit of the base. -/
def accepts (b : NumberBase) (c : Char) : Bool := (b.digit? c).isSome

end NumberBase

/-- A number as it is written. -/
structure NumberLiteral where
  text : String
  base : NumberBase
  deriving DecidableEq

namespace NumberLiteral

/-- The literal behind the mark of its base. -/
def display (n : NumberLiteral) : String := n.base.mark ++ n.text

/-- Whether the literal is written as an integer. Only a decimal literal can be anything
else. -/
def isInteger (n : NumberLiteral) : Bool :=
  n.base ≠ .decimal || n.text.toList.all Char.isDigit

/-- The value of a digit sequence read from the left, `value` being that of the digits
already read. Separators are passed over. -/
def digitsValue? (b : NumberBase) (value : Nat) : List Char → Option Nat
  | [] => some value
  | '_' :: cs => digitsValue? b value cs
  | c :: cs =>
    match b.digit? c with
    | some d => digitsValue? b (value * b.radix + d) cs
    | none => none

/-- The value of digits that neither are missing nor begin with a separator. -/
def natural? (b : NumberBase) : List Char → Option Nat
  | [] => none
  | '_' :: _ => none
  | cs => digitsValue? b 0 cs

/-- The value of a literal that is written as an integer. One sign may precede the
digits. -/
def integer? (n : NumberLiteral) : Option Int :=
  if n.isInteger then
    match n.text.toList with
    | '-' :: cs => (natural? n.base cs).map fun v => -(v : Int)
    | '+' :: cs => (natural? n.base cs).map fun v => (v : Int)
    | cs => (natural? n.base cs).map fun v => (v : Int)
  else none

end NumberLiteral

end DrakeSyntax
