/-!
# Data that describe themselves

A `Datum` is a value together with the names that its type gave to it: the record and its
fields, the variant and its payload. Both forms in which results are shown, JSON and the
labelled form, are functions of the datum alone (`Datum.json`, `Datum.labelled`).
-/

namespace DrakeSyntax

/-- A value with the names of its parts. -/
inductive Datum where
  | text (s : String)
  | natural (n : Nat)
  | boolean (b : Bool)
  | list (items : List Datum)
  /-- A missing optional value. -/
  | absent
  /-- An optional value that is there. -/
  | present (value : Datum)
  | record (name : String) (fields : List (String × Datum))
  /-- A variant without content. -/
  | variant (name : String)
  /-- A variant with one unnamed content. -/
  | tagged (name : String) (content : Datum)
  /-- A variant with named fields. -/
  | taggedRecord (name : String) (fields : List (String × Datum))

namespace Datum

/-- An optional value by way of the datum of its content. -/
def ofOption (datum : α → Datum) : Option α → Datum
  | none => absent
  | some a => present (datum a)

/-- A list of values by way of the datum of each. -/
def ofList (datum : α → Datum) (as : List α) : Datum := list (as.map datum)

end Datum

end DrakeSyntax
