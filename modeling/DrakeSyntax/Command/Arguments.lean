import DrakeSyntax.Command.Request

/-!
# Command line arguments

The reader of arguments that the command is run with; a run itself takes any reader
(`commandWith`). A command names one source, a file or inline code, and says what to make of it.
Arguments are read from left to right and the first fault decides. An option whose value is the
next argument is only recorded when another option begins or the arguments end; until then its own
faults give way to an argument that cannot be read at all.

* `Request.ofArguments` reads the arguments of a command.
-/

namespace DrakeSyntax

/-- Why arguments make no request. -/
inductive UsageError where
  /-- No source is named. -/
  | missingRequiredArgument
  /-- Two sources are named, or an option is given twice. -/
  | argumentConflict
  /-- The value of an option is missing or is none of its values. -/
  | invalidValue
  /-- An argument is no option. -/
  | unknownArgument
  /-- An option that has no value is given one. -/
  | tooManyValues
  /-- Help is asked for. -/
  | displayHelp
  /-- The version is asked for. -/
  | displayVersion
  deriving DecidableEq

/-- The options of the command line. -/
inductive CommandOption where
  | file | eval | emit | format | output | verbose | help | version
  deriving DecidableEq

namespace CommandOption

/-- All options. -/
def all : List CommandOption := [file, eval, emit, format, output, verbose, help, version]

/-- The name behind two dashes. -/
def long : CommandOption → String
  | file => "file"
  | eval => "eval"
  | emit => "emit"
  | format => "format"
  | output => "output"
  | verbose => "verbose"
  | help => "help"
  | version => "version"

/-- The letter behind one dash, if there is one. -/
def short? : CommandOption → Option Char
  | file => some 'f'
  | eval => some 'e'
  | emit => none
  | format => none
  | output => some 'o'
  | verbose => some 'v'
  | help => some 'h'
  | version => some 'V'

/-- Whether the option has a value. -/
def takesValue : CommandOption → Bool
  | file | eval | emit | format | output => true
  | verbose | help | version => false

/-- The option with a long name. -/
def ofLong? (name : List Char) : Option CommandOption := all.find? (·.long.toList == name)

/-- The option with a letter. -/
def ofShort? (c : Char) : Option CommandOption := all.find? (·.short? == some c)

end CommandOption

/-- The artefact that a value names. -/
def Artefact.ofWord? : String → Option Artefact
  | "tokens" => some tokens
  | "ast" => some program
  | _ => none

/-- The format that a value names. -/
def RenderFormat.ofWord? : String → Option RenderFormat
  | "debug" => some plain
  | "json" => some json
  | _ => none

/-- The options that have been recorded. -/
structure Settings where
  file : Option String := none
  eval : Option String := none
  emit : Option Artefact := none
  format : Option RenderFormat := none
  output : Option String := none
  verbose : Bool := false

namespace Settings

/-- The value of an option that may be given only once. -/
def once (old : Option α) (new : Option α) : Except UsageError (Option α) :=
  if old.isSome then throw .argumentConflict
  else if new.isNone then throw .invalidValue
  else return new

/-- Records an option that has a value. -/
def recordValue (s : Settings) (o : CommandOption) (value : String) : Except UsageError Settings :=
  match o with
  | .file => return { s with file := ← once s.file (some value) }
  | .eval => return { s with eval := ← once s.eval (some value) }
  | .emit => return { s with emit := ← once s.emit (Artefact.ofWord? value) }
  | .format => return { s with format := ← once s.format (RenderFormat.ofWord? value) }
  | .output => return { s with output := ← once s.output (some value) }
  | .verbose | .help | .version => throw .tooManyValues

/-- Records an option that has no value. -/
def recordFlag (s : Settings) (o : CommandOption) : Except UsageError Settings :=
  match o with
  | .verbose => if s.verbose then throw .argumentConflict else return { s with verbose := true }
  | .help => throw .displayHelp
  | .version => throw .displayVersion
  | .file | .eval | .emit | .format | .output => throw .invalidValue

end Settings

/-- How far arguments have been read. -/
structure Reading where
  settings : Settings := {}
  /-- An option that is not recorded yet, and its value if that has been read. -/
  pending : Option (CommandOption × Option String) := none
  /-- Whether two lone dashes have ended the options. -/
  ended : Bool := false

namespace Reading

/-- Records the pending option. -/
def settle (r : Reading) : Except UsageError Reading :=
  match r.pending with
  | some (o, some value) =>
    return { r with settings := ← r.settings.recordValue o value, pending := none }
  | some (_, none) => throw .invalidValue
  | none => return r

/-- Reads an option that has no value. -/
def flag (r : Reading) (o : CommandOption) : Except UsageError Reading := do
  let r ← r.settle
  return { r with settings := ← r.settings.recordFlag o }

/-- Reads an option whose value is part of the same argument, or else is to come. -/
def valued (r : Reading) (o : CommandOption) (attached : Option (List Char)) :
    Except UsageError Reading := do
  let r ← r.settle
  match attached with
  | some value => return { r with settings := ← r.settings.recordValue o (String.ofList value) }
  | none => return { r with pending := some (o, none) }

/-- Reads an argument that begins with two dashes; `name` is what follows them. -/
def longOption (r : Reading) (name : List Char) (attached : Option (List Char)) :
    Except UsageError Reading :=
  match CommandOption.ofLong? name with
  | some o =>
    if o.takesValue then r.valued o attached
    else if attached.isSome then throw .tooManyValues
    else r.flag o
  | none => throw .unknownArgument

/-- The value behind the letter of an option; an equals sign between them is dropped. -/
def attachedValue : List Char → Option (List Char)
  | [] => none
  | '=' :: cs => some cs
  | cs => some cs

/-- Reads the letters behind one dash. -/
def shortOptions (r : Reading) : List Char → Except UsageError Reading
  | [] => return r
  | c :: cs =>
    match CommandOption.ofShort? c with
    | some o =>
      if o.takesValue then r.valued o (attachedValue cs)
      else do (← r.flag o).shortOptions cs
    | none => throw .unknownArgument

/-- Reads an argument that is no option: the value that the pending option waits for. -/
def plainArgument (r : Reading) (value : String) : Except UsageError Reading :=
  match r.pending with
  | some (o, none) => return { r with pending := some (o, some value) }
  | _ => throw .unknownArgument

/-- Reads an argument. -/
def argument (r : Reading) (arg : String) : Except UsageError Reading :=
  if r.ended then throw .unknownArgument
  else
    match arg.toList with
    | ['-', '-'] => return { r with ended := true }
    | '-' :: '-' :: cs =>
      match cs.dropWhile (· ≠ '=') with
      | '=' :: value => r.longOption (cs.takeWhile (· ≠ '=')) (some value)
      | _ => r.longOption cs none
    | '-' :: c :: cs => r.shortOptions (c :: cs)
    | _ => r.plainArgument arg

end Reading

/-- Settings name exactly one source. -/
def Settings.nameSource (s : Settings) : Except UsageError Unit :=
  match s.file, s.eval with
  | some _, none | none, some _ => return ()
  | some _, some _ => throw .argumentConflict
  | none, none => throw .missingRequiredArgument

/-- Reads the arguments of a command. -/
def Request.ofArguments (args : List String) : Except UsageError Request := do
  let r ← args.foldlM Reading.argument {}
  let s := (← r.settle).settings
  s.nameSource
  return ⟨s.file, s.eval, s.emit.getD .program, s.format.getD .plain, s.output, s.verbose⟩

end DrakeSyntax
