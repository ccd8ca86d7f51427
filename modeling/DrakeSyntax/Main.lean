import DrakeSyntax.Command.Run

/-!
# The command

Carries out the run that the arguments ask for.
-/

namespace DrakeSyntax

/-- A failure of the system as a file error. -/
def FileError.ofSystem : IO.Error → FileError
  | .noFileOrDirectory .. => .notFound
  | e => .other (toString e)

/-- Reads a file as text. -/
def readText (path : String) : IO (Except FileError String) := do
  try
    let bytes ← IO.FS.readBinFile path
    match String.fromUTF8? bytes with
    | some text => return .ok text
    | none => return .error .notText
  catch e => return .error (.ofSystem e)

/-- Writes a text to a file. -/
def writeText (path text : String) : IO (Except FileError Unit) := do
  try
    IO.FS.writeFile path text
    return .ok ()
  catch e => return .error (.ofSystem e)

/-- Carries out a run. -/
def Action.perform : Action → IO Outcome
  | read path next => do perform (next (← readText path))
  | write path text next => do perform (next (← writeText path text))
  | finish outcome => return outcome

end DrakeSyntax

/-- The command. -/
def main (args : List String) : IO UInt32 := do
  let outcome ← (DrakeSyntax.command args).perform
  (← IO.getStdout).putStr outcome.stdout
  (← IO.getStderr).putStr outcome.stderr
  return outcome.exitCode.toUInt32
