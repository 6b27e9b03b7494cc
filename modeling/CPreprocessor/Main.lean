import CPreprocessor.Command.Outcome

/-!
The command `cmacro`: reads the file that its arguments name, prints and writes what
`CPreprocessor.Command.run` says.
-/

namespace CPreprocessor.Main

/-- The environment variables that the command looks at. -/
def variableNames : List String :=
  ["CMACRO_DEFINES", "CMACRO_UNDEFINES", "CMACRO_MAX_DEPTH", "CMACRO_MAX_ERRORS",
   "CMACRO_KEEP_COMMENTS"]

/-- The variables that are set. -/
def environment : IO (List (String × String)) := do
  let values ← variableNames.mapM fun name =>
    return (← IO.getEnv name).map fun value => (name, value)
  return values.filterMap id

/-- What a path leads to. What cannot be read is taken to be free, and the attempt to write it
tells. -/
def target (path : String) : IO Target := do
  try
    let file ← IO.FS.realPath path
    if ← file.isDir then return .directory
    return .file (← IO.FS.readBinFile file)
  catch _ => return .free

/-- What the paths in arguments lead to. -/
def targets (arguments : List String) : IO (List (String × Target)) := do
  match Request.ofArguments arguments with
  | some (.task t) =>
    let paths := t.input :: (t.output.map fun path => [path, Path.normalise path]).getD []
    paths.mapM fun path => return (path, ← target path)
  | _ => return []

/-- What is said about arguments or an input that cannot be used. -/
def usage : String := "Usage: cmacro [OPTIONS] INPUT_FILE\n"

/-- Prints a text, without its control sequences unless a terminal reads it. -/
def print (stream : IO.FS.Stream) (text : String) : IO Unit := do
  stream.putStr (if ← stream.isTty then text else Text.plain text)

end CPreprocessor.Main

open CPreprocessor in
/-- Runs the command. -/
def main (arguments : List String) : IO UInt32 := do
  let targets ← Main.targets arguments
  let outcome := Command.run arguments (← Main.environment) fun path =>
    (targets.lookup path).getD .nowhere
  Main.print (← IO.getStdout) outcome.printed
  match outcome.written with
  | some (path, text) => IO.FS.writeFile path text
  | none => pure ()
  Main.print (← IO.getStderr) (outcome.errors.getD Main.usage)
  return outcome.exit.number.toUInt32
