import DrakeSyntax.Error.Datum
import DrakeSyntax.Main
import DrakeSyntax.Proofs.Account.Program
import DrakeSyntax.Proofs.Layout.Tokenize
import DrakeSyntax.Proofs.Place.Calls
import DrakeSyntax.Proofs.Precedence
import DrakeSyntax.Proofs.Balance
import DrakeSyntax.Proofs.Relocation
import DrakeSyntax.Proofs.Spelling.Tokenize
import DrakeSyntax.Proofs.WellFormed.Session
import DrakeSyntax.Proofs.Writing.RoundTrip
import DrakeSyntax.Tree.Same
import DrakeSyntax.Proofs.Coupling
import DrakeSyntax.Proofs.Coupling.Phrase
import DrakeSyntax.Proofs.Coupling.Operand
import DrakeSyntax.Proofs.Coupling.Expression
import DrakeSyntax.Proofs.Placement
import DrakeSyntax.Proofs.Relocation.Scan
import DrakeSyntax.Proofs.LineBreaks
import DrakeSyntax.Proofs.Coupling.Diagonal
import DrakeSyntax.Proofs.Pointing
import DrakeSyntax.Proofs.Coupling.Excerpt
import DrakeSyntax.Proofs.Separators
import DrakeSyntax.Proofs.Separators.Atom
import DrakeSyntax.Proofs.Separators.Item
import DrakeSyntax.Proofs.Separators.Surroundings
import DrakeSyntax.Proofs.Separators.Key
import DrakeSyntax.Proofs.Separators.Commas
import DrakeSyntax.Proofs.Separators.Braces
import DrakeSyntax.Proofs.Separators.Arguments
import DrakeSyntax.Proofs.Streaming
import DrakeSyntax.Proofs.Streaming.Advance
import DrakeSyntax.Proofs.Agreement.Part
import DrakeSyntax.Proofs.Rounds
import DrakeSyntax.Proofs.Progress
import DrakeSyntax.Proofs.Coupling.Cut
import DrakeSyntax.Proofs.Confined
import DrakeSyntax.Proofs.Outline
import DrakeSyntax.Proofs.Outline.Rules
import DrakeSyntax.Proofs.Outline.Phrase
import DrakeSyntax.Proofs.Outline.Expression
import DrakeSyntax.Proofs.Leading
import DrakeSyntax.Proofs.LooseBreaks
import DrakeSyntax.Proofs.LooseBreaks.Rules
import DrakeSyntax.Proofs.LooseBreaks.Phrase
import DrakeSyntax.Proofs.LooseBreaks.Operand
import DrakeSyntax.Proofs.LooseBreaks.Expression
import DrakeSyntax.Proofs.LooseBreaks.Program
import DrakeSyntax.Proofs.Nesting
import DrakeSyntax.Proofs.Brackets
import DrakeSyntax.Proofs.Coupling.LambdaHead
import DrakeSyntax.Proofs.Blocks
import DrakeSyntax.Proofs.Conditionals
import DrakeSyntax.Proofs.Numerals
import DrakeSyntax.Proofs.IntegerValue
import DrakeSyntax.Proofs.Complaints
import DrakeSyntax.Proofs.StringLiterals
import DrakeSyntax.Proofs.Lines
import DrakeSyntax.Proofs.Offences.Tokenize
import DrakeSyntax.Proofs.Listing
import DrakeSyntax.Proofs.Relocation.Same
import DrakeSyntax.Proofs.TypeText
import DrakeSyntax.Proofs.Json
import DrakeSyntax.Proofs.TreeInduction
import DrakeSyntax.Proofs.Lossless
import DrakeSyntax.Proofs.Longest
import DrakeSyntax.Proofs.FileSet
import DrakeSyntax.Proofs.Arguments
import DrakeSyntax.Proofs.Command
