import DrakeSyntax.Report.Render

/-!
# Requests

A request is what a command asks for once its arguments have been read: a source, a file or inline
code, and what to make of it.
-/

namespace DrakeSyntax

/-- Where a source is found. -/
inductive Input where
  | file (path : String)
  | code (text : String)
  deriving DecidableEq

/-- What a command asks for. -/
structure Request where
  /-- The file to read. -/
  file : Option String
  /-- Inline code. -/
  code : Option String
  artefact : Artefact
  format : RenderFormat
  /-- The file to write to. -/
  output : Option String
  /-- Whether milestones are reported. -/
  verbose : Bool
  deriving DecidableEq

/-- The source of a request. Inline code goes before a file. -/
def Request.input (r : Request) : Input :=
  match r.code with
  | some text => .code text
  | none => .file (r.file.getD "")

end DrakeSyntax
