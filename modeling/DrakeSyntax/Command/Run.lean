import DrakeSyntax.Command.Arguments
import DrakeSyntax.Command.Files
import DrakeSyntax.Report.Diagnostic

/-!
# Runs of the command

A run is an `Action`: it may read a file, may write one, and ends with an outcome. Nothing
else happens, so what a run does to a set of files is a function of the action and the
files (`Action.runIn`), and the command itself only has to carry out the same steps.

* `Request.action` is the run that a request asks for.
* `commandWith` is the run that arguments ask for, by whatever they are read with.
* `command` reads them by `Request.ofArguments`.
-/

namespace DrakeSyntax

/-- How a run ends. -/
structure Outcome where
  exitCode : Nat
  stdout : String
  stderr : String
  deriving DecidableEq

/-- The steps of a run. -/
inductive Action where
  | read (path : String) (next : Except FileError String → Action)
  | write (path text : String) (next : Except FileError Unit → Action)
  | finish (outcome : Outcome)

/-- Carries out a run among some files. -/
def Action.runIn (fs : FileSet) : Action → Outcome × FileSet
  | read path next => runIn fs (next (fs.read path))
  | write path text next =>
    match fs.write path text with
    | .ok fs' => runIn fs' (next (.ok ()))
    | .error e => runIn fs (next (.error e))
  | finish outcome => (outcome, fs)

/-- A step of a run that has been taken. -/
inductive Milestone where
  | read (bytes : Nat) (path : String)
  | parsing (tokens : Nat)
  | parsed (expressions : Nat)
  | emittingTokens (tokens : Nat)
  | emittingExpressions (expressions : Nat)
  | wrote (path : String)

namespace Milestone

/-- The part of the program that reports the milestone. -/
def reporter : Milestone → String
  | parsing _ | parsed _ => "drake_parser::parser"
  | read .. | emittingTokens _ | emittingExpressions _ | wrote _ => "drake_cli::driver"

/-- What is reported. -/
def message : Milestone → String
  | read bytes path => "read " ++ toString bytes ++ " bytes from " ++ path
  | parsing tokens => "parsing " ++ toString tokens ++ " tokens"
  | parsed expressions => "parsed " ++ toString expressions ++ " top-level expressions"
  | emittingTokens tokens => "emitting " ++ toString tokens ++ " tokens"
  | emittingExpressions expressions => "emitting " ++ toString expressions ++ " expressions"
  | wrote path => "wrote output to " ++ path

/-- The line of the milestone in the log. -/
def line (m : Milestone) : String := "[DEBUG] " ++ m.reporter ++ ": " ++ m.message ++ "\n"

/-- The milestones of rendering a text. -/
def ofRendering (artefact : Artefact) (text : String) : List Milestone :=
  match tokenize text with
  | .error _ => []
  | .ok ts =>
    match artefact with
    | .tokens => [emittingTokens ts.length]
    | .program =>
      match parseTokens ts with
      | .error _ => [parsing ts.length]
      | .ok p => [parsing ts.length, parsed p.body.length, emittingExpressions p.body.length]

end Milestone

namespace Request

/-- The log of some milestones, empty unless the request is verbose. -/
def log (r : Request) (milestones : Unit → List Milestone) : String :=
  if r.verbose then String.join ((milestones ()).map Milestone.line) else ""

/-- Reports a text: into the output file if there is one. `log` is what was logged before. -/
def deliver (r : Request) (log rendered : String) : Action :=
  match r.output with
  | none => .finish ⟨0, rendered ++ "\n", log⟩
  | some path =>
    .write path (rendered ++ "\n") fun
      | .ok () => .finish ⟨0, "", log ++ r.log fun _ => [.wrote path]⟩
      | .error e => .finish ⟨1, "", log ++ "error: file error: " ++ e.message ++ "\n"⟩

/-- Renders the text of the source called `name`. `log` is what was logged before. -/
def process (r : Request) (log name text : String) : Action :=
  let log := log ++ r.log fun _ => Milestone.ofRendering r.artefact text
  match render r.artefact r.format text with
  | .ok rendered => r.deliver log rendered
  | .error e => .finish ⟨1, "", log ++ Diagnostic.render name text e⟩

/-- The run that a request asks for. -/
def action (r : Request) : Action :=
  match r.input with
  | .code text => r.process "" "<eval>" text
  | .file path =>
    .read path fun
      | .ok text => r.process (r.log fun _ => [.read text.utf8ByteSize path]) path text
      | .error e =>
        .finish
          ⟨1, "", "error: could not read file '" ++ path ++ "': file error: " ++ e.message ++ "\n"⟩

end Request

/-- The version of the command. -/
def versionText : String := "drake 0.1.0\n"

/-- How the command is used. -/
def usageText : String :=
  "Lex and parse Drake source code\n\n" ++
  "Usage: drake [OPTIONS] <--file <FILE>|--eval <EVAL>>\n\n" ++
  "Options:\n" ++
  "  -f, --file <FILE>      Source file to parse\n" ++
  "  -e, --eval <EVAL>      Inline source code to parse\n" ++
  "      --emit <EMIT>      What to print: tokens or ast (the default)\n" ++
  "      --format <FORMAT>  Output format: debug (the default) or json\n" ++
  "  -o, --output <OUTPUT>  Write the output to this file\n" ++
  "  -v, --verbose          Log milestones\n" ++
  "  -h, --help             Print help\n" ++
  "  -V, --version          Print version\n"

/-- What is wrong with the arguments. -/
def UsageError.message : UsageError → String
  | missingRequiredArgument => "one of --file and --eval is required"
  | argumentConflict => "an option cannot be used twice, nor --file together with --eval"
  | invalidValue => "the value of an option is missing or not possible"
  | unknownArgument => "unexpected argument"
  | tooManyValues => "unexpected value of an option"
  | displayHelp => "help"
  | displayVersion => "version"

/-- The outcome of arguments that make no request. -/
def UsageError.outcome : UsageError → Outcome
  | displayHelp => ⟨0, usageText, ""⟩
  | displayVersion => ⟨0, versionText, ""⟩
  | e => ⟨2, "", "error: " ++ e.message ++ "\n"⟩

/-- The run that the arguments of a command ask for. They are left to `read`, which makes a request
of them or ends the run itself: with the usage of the command, its version or a complaint. -/
def commandWith (read : List String → Except Outcome Request) (args : List String) : Action :=
  match read args with
  | .ok r => r.action
  | .error outcome => .finish outcome

/-- The reader of arguments that the command is run with. -/
def readArguments (args : List String) : Except Outcome Request :=
  (Request.ofArguments args).mapError UsageError.outcome

/-- The command as it is run. -/
def command (args : List String) : Action := commandWith readArguments args

end DrakeSyntax
