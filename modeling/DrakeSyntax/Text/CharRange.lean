/-!
# Ranges of characters

Character properties that reach beyond ASCII are tables of ranges of scalar values.
-/

namespace DrakeSyntax.Text

/-- The scalar values from `first` to `last`, both included. -/
structure CharRange where
  first : Nat
  last : Nat

/-- Whether a character lies in the range. -/
def CharRange.contains (r : CharRange) (c : Char) : Bool :=
  r.first ≤ c.toNat && c.toNat ≤ r.last

/-- Whether a character lies in one of the ranges. -/
def inRanges (rs : List CharRange) (c : Char) : Bool := rs.any (·.contains c)

end DrakeSyntax.Text
