import DrakeSyntax.Grammar.Parser

/-!
# Phrases inside phrases

A production does not call itself for the phrases inside it: it is given an `Inner`, the
parsers for those. The productions are tied together to a depth that the number of tokens
bounds, since a phrase takes a token before it reads one inside it.
-/

namespace DrakeSyntax

/-- The parsers for the phrases inside a phrase. -/
structure Inner where
  /-- How deep the phrases inside can nest, and how often a repetition inside can go round. -/
  rounds : Nat
  /-- Whether outcomes of bracketed phrases are remembered. -/
  remembers : Bool
  expression : Parser Node
  unary : Parser Node
  type : Parser TypeHint

/-- No phrase is possible. -/
def Inner.none (remembers : Bool) : Inner where
  rounds := 0
  remembers := remembers
  expression := .failExpecting ["expression"]
  unary := .failExpecting ["expression"]
  type := .failExpecting ["identifier"]

end DrakeSyntax
