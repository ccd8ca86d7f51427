import DrakeSyntax.Datum
import DrakeSyntax.Text.Quoted

/-!
# The labelled form of data

The labelled form names everything: `Name { field: value }` for a record,
`Name(content)` for a variant, `Some(value)` and `None` for optional values. The broken
form puts every field, content and list element on a line of its own, four blanks deeper
and with a comma behind it.
-/

namespace DrakeSyntax.Datum

mutual

/-- The labelled form on one line. -/
def labelled : Datum → String
  | text s => Text.quoted s
  | natural n => toString n
  | boolean true => "true"
  | boolean false => "false"
  | list items => "[" ++ ", ".intercalate (labelledItems items) ++ "]"
  | absent => "None"
  | present value => "Some(" ++ value.labelled ++ ")"
  | record name fields => name ++ " \x7b " ++ ", ".intercalate (labelledFields fields) ++ " \x7d"
  | variant name => name
  | tagged name content => name ++ "(" ++ content.labelled ++ ")"
  | taggedRecord name fields =>
    name ++ " \x7b " ++ ", ".intercalate (labelledFields fields) ++ " \x7d"

/-- The labelled forms of the elements of a list. -/
def labelledItems : List Datum → List String
  | [] => []
  | d :: ds => d.labelled :: labelledItems ds

/-- Named fields, each behind its name. -/
def labelledFields : List (String × Datum) → List String
  | [] => []
  | (name, d) :: fields => (name ++ ": " ++ d.labelled) :: labelledFields fields

end

/-- The line break and the blanks in front of a line at a depth; a level is four blanks. -/
def lineStart (depth : Nat) : String := "\n" ++ String.ofList (List.replicate (4 * depth) ' ')

/-- Elements written one level below `depth`, each on a line of its own with a comma behind
it, and the start of the line that closes them. -/
def broken (depth : Nat) (elements : List String) : String :=
  String.join (elements.map fun e => lineStart (depth + 1) ++ e ++ ",") ++ lineStart depth

mutual

/-- The broken labelled form of a datum that starts on a line at a depth. -/
def brokenAt (depth : Nat) : Datum → String
  | text s => Text.quoted s
  | natural n => toString n
  | boolean true => "true"
  | boolean false => "false"
  | list [] => "[]"
  | list (d :: ds) => "[" ++ broken depth (brokenItems (depth + 1) (d :: ds)) ++ "]"
  | absent => "None"
  | present value => "Some(" ++ broken depth [value.brokenAt (depth + 1)] ++ ")"
  | record name fields =>
    name ++ " \x7b" ++ broken depth (brokenFields (depth + 1) fields) ++ "\x7d"
  | variant name => name
  | tagged name content => name ++ "(" ++ broken depth [content.brokenAt (depth + 1)] ++ ")"
  | taggedRecord name fields =>
    name ++ " \x7b" ++ broken depth (brokenFields (depth + 1) fields) ++ "\x7d"

/-- The broken forms of the elements of a list. -/
def brokenItems (depth : Nat) : List Datum → List String
  | [] => []
  | d :: ds => d.brokenAt depth :: brokenItems depth ds

/-- Named fields, each behind its name. -/
def brokenFields (depth : Nat) : List (String × Datum) → List String
  | [] => []
  | (name, d) :: fields => (name ++ ": " ++ d.brokenAt depth) :: brokenFields depth fields

end

/-- The labelled form over several lines. -/
def labelledLines (d : Datum) : String := d.brokenAt 0

end DrakeSyntax.Datum
