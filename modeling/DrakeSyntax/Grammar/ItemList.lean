import DrakeSyntax.Grammar.Parser

/-!
# Lists of items

Items are separated by commas, each perhaps with a line break behind it, or by line breaks
alone; the first separator decides for the whole list. A line break may open and close a
list, and a list separated by commas may end with one.
-/

namespace DrakeSyntax

/-- The items of a list, and whether a comma follows the last one. -/
structure ItemList (α : Type) where
  items : List α
  trailingComma : Bool

/-- The list with one more item in front. -/
def ItemList.cons (a : α) (l : ItemList α) : ItemList α := { l with items := a :: l.items }

/-- What separates the items of a list. -/
inductive Separator where
  | comma | newline
  deriving DecidableEq

/-- Whether a token ends a list. -/
def Token.closesList : Token → Bool
  | .punctuator .rightParen | .punctuator .rightBracket | .punctuator .rightBrace
  | .endOfInput => true
  | _ => false

namespace Parser

/-- The structural error of a list that has both separators. -/
def mixedSeparators : String := "cannot mix comma and newline separators"

/-- Reads on behind the item `last`, which separators of the kind `separator` precede if any
do, and returns the list from that item on. An item may depend on the one before it. At most
`rounds` items are added. -/
def listFrom (item : Option α → Parser α) :
    (rounds : Nat) → (separator : Option Separator) → (last : α) → Parser (ItemList α)
  | 0, _, last => return ⟨[last], false⟩
  | rounds + 1, separator, last => do
    if ← isAt (.punctuator .comma) then
      if separator = some .newline then reject mixedSeparators
      else
        discard advance
        discard (eat .newline)
        if (← peek).token.closesList then return ⟨[last], true⟩
        else
          let next ← item (some last)
          return (← listFrom item rounds (some .comma) next).cons last
    else if ← isAt .newline then
      let following ← peekFollowing
      if following.closesList then
        discard advance
        return ⟨[last], false⟩
      else if following = .punctuator .comma then
        discard advance
        reject mixedSeparators
      else if separator = some .comma then reject mixedSeparators
      else
        discard advance
        let next ← item (some last)
        return (← listFrom item rounds (some .newline) next).cons last
    else return ⟨[last], false⟩

/-- A list whose items may depend on the ones before them. -/
def listWith (rounds : Nat) (item : Option α → Parser α) : Parser (ItemList α) := do
  discard (eat .newline)
  if (← peek).token.closesList then return ⟨[], false⟩
  else listFrom item rounds none (← item none)

/-- A list. -/
def list (rounds : Nat) (item : Parser α) : Parser (ItemList α) := listWith rounds fun _ => item

/-- A list that goes on behind its first item. -/
def listBehind (rounds : Nat) (first : α) (item : Parser α) : Parser (ItemList α) :=
  listFrom (fun _ => item) rounds none first

/-- A list in parentheses, or a single item. -/
def delimited (rounds : Nat) (item : Parser α) : Parser (List α) := do
  if ← eat (.punctuator .leftParen) then
    let l ← list rounds item
    discard (expect (.punctuator .rightParen))
    return l.items
  else return [← item]

end Parser

end DrakeSyntax
