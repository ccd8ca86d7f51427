import DrakeSyntax.Grammar.ItemList

/-!
# The longer of two phrases

Where two kinds of item are possible, the one that takes more tokens is meant
(`Parser.longer`). A list of both kinds has all items of the first kind before those of the
second: behind an item of the second kind only that kind is tried.
-/

namespace DrakeSyntax.Parser

/-- Tries both parsers at the cursor and keeps the outcome that takes more tokens, the first
on a tie. If both fail, the error that lies further on is reported. -/
def longer (p : Parser α) (q : Parser β) : Parser (α ⊕ β) := do
  let start ← mark
  let first ← attempt p
  let firstEnd ← mark
  reset start
  let second ← attempt q
  let secondEnd ← mark
  match first, second with
  | .ok a, .ok b =>
    if firstEnd.index < secondEnd.index then return .inr b
    else
      reset firstEnd
      return .inl a
  | .ok a, .error _ =>
    reset firstEnd
    return .inl a
  | .error _, .ok b => return .inr b
  | .error e, .error e' =>
    reset start
    throw (if e.position.offset < e'.position.offset then e' else e)

/-- An item of a list that has two kinds of item. -/
def eitherItem (p : Parser α) (q : Parser β) : Option (α ⊕ β) → Parser (α ⊕ β)
  | some (.inr _) => return .inr (← q)
  | _ => longer p q

/-- The items of either kind, in order. -/
def separate : List (α ⊕ β) → List α × List β
  | [] => ([], [])
  | .inl a :: items => ((separate items).1.cons a, (separate items).2)
  | .inr b :: items => ((separate items).1, (separate items).2.cons b)

/-- A list of items of a first kind and then of a second kind. -/
def twoKindList (rounds : Nat) (p : Parser α) (q : Parser β) : Parser (List α × List β) := do
  let l ← listWith rounds (eitherItem p q)
  return separate l.items

/-- A list of two kinds of item in parentheses, or a single item of either kind. -/
def twoKindDelimited (rounds : Nat) (p : Parser α) (q : Parser β) : Parser (List α × List β) := do
  if ← eat (.punctuator .leftParen) then
    let lists ← twoKindList rounds p q
    discard (expect (.punctuator .rightParen))
    return lists
  else return separate [← longer p q]

end DrakeSyntax.Parser
