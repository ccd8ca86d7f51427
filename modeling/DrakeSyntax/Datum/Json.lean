import DrakeSyntax.Datum
import DrakeSyntax.Json

/-!
# Data as JSON

A record is an object of its fields and loses its name; a variant is an object with its
name as the only key, or just that name when it has no content; a missing value is `null`
and a present one is not marked.
-/

namespace DrakeSyntax.Datum

mutual

/-- A datum as JSON. Assumed is the form that serializers document for data types by default: a record
is an object of its fields under their own names and in their order, a variant without content is its
name, one with content is an object with its name as the only key, a list is an array, a missing
optional value is `null`, and one that is there is its content. -/
def json : Datum → Json
  | text s => .string s
  | natural n => .number n
  | boolean b => .boolean b
  | list items => .array (jsonItems items)
  | absent => .null
  | present value => value.json
  | record _ fields => .object (jsonFields fields)
  | variant name => .string name
  | tagged name content => .object [(name, content.json)]
  | taggedRecord name fields => .object [(name, .object (jsonFields fields))]

/-- The elements of a list as JSON. -/
def jsonItems : List Datum → List Json
  | [] => []
  | d :: ds => d.json :: jsonItems ds

/-- Named fields as the members of an object. -/
def jsonFields : List (String × Datum) → List (String × Json)
  | [] => []
  | (name, d) :: fields => (name, d.json) :: jsonFields fields

end

end DrakeSyntax.Datum
