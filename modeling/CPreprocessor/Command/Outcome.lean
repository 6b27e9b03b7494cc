import CPreprocessor.Command.Arguments
import CPreprocessor.Command.Folder
import CPreprocessor.Command.Response
import CPreprocessor.Directive.Run
import CPreprocessor.Text.Console

/-!
The command as a function from its arguments, its environment and what paths lead to, to what it
prints and writes.
-/

namespace CPreprocessor

/-- What the command did. Without an error text, the words of the error are left to the caller: the
arguments or the input could not be used. -/
structure Outcome where
  exit : ExitCode
  printed : String := ""
  errors : Option String := some ""
  /-- a file that was written, with its text -/
  written : Option (String × String) := none
deriving DecidableEq, Inhabited

namespace Outcome

/-- The arguments or the input could not be used. -/
def unusable : Outcome := { exit := .invalidArguments, errors := none }

/-- A file could not be looked up or written, and the command went no further. -/
def brokenOff (warnings : String) : Outcome := { exit := .failure, errors := some warnings }

/-- The outcome with what is printed as it is where no terminal reads it. A file that was written
keeps its control sequences. -/
def plain (o : Outcome) : Outcome :=
  { o with printed := Text.plain o.printed, errors := o.errors.map Text.plain }

end Outcome

namespace Command

/-- The text of `--version`. -/
def versionText : String := "cmacro, version 1.0.0\n"

/-- The significant tokens of a run, one a line: place, kind and spelling. -/
def tokenList (tokens : List Token) : String :=
  String.join <| (significant tokens).map fun t =>
    t.location.render ++ "\t" ++ t.kind.name ++ "\t" ++ t.text ++ "\n"

/-- How a branch was decided, in words. -/
def takenText : Option Bool → String
  | some true => "taken"
  | some false => "not taken"
  | none => "skipped"

/-- The verdicts of a run, one a line. -/
def verdictList (verdicts : List Verdict) : String :=
  String.join <| verdicts.map fun v =>
    v.location.render ++ ": " ++ DirectiveFault.withMessage v.directive.name v.condition ++
      " -> " ++ takenText v.taken ++ "\n"

/-- The options of a task: what it asks for goes before what the environment does. -/
def options (t : Task) (fromEnvironment : Options) : Except NamelessMacro Options :=
  let start : Options :=
    { fromEnvironment with
      keepComments := fromEnvironment.keepComments || t.keepComments
      warnUndefined := fromEnvironment.warnUndefined || t.warnUndefined
      maxDepth := t.maxDepth.getD fromEnvironment.maxDepth }
  (t.defines.foldlM Options.define start).map fun o =>
    { o with undefined := o.undefined ++ t.undefines }

/-- What a finished run prints. -/
def report (t : Task) (r : Run) : String :=
  (if t.tokens then tokenList r.output else r.text) ++
    if t.verdicts then verdictList r.verdicts else ""

/-- The outcome of a task that meets an obstacle. -/
def obstructed (warnings : String) (o : Obstacle) : Outcome :=
  { exit := o.exitCode, errors := some (warnings ++ o.text) }

/-- The outcome of a run that has finished with a text. -/
def delivered (t : Task) (look : String → Target) (warnings : String) (r : Run) : Outcome :=
  let text := report t r
  let diagnostics := r.journal.entries
  let finished : Outcome :=
    { exit := Diagnostic.exitCode diagnostics
      errors := some (warnings ++ Diagnostic.printed diagnostics) }
  match t.output.map Path.normalise with
  | none => { finished with printed := text }
  | some path =>
    if (look path).isWritable then { finished with written := some (path, text) }
    else .brokenOff warnings

/-- Carries out a task on the bytes of its input. -/
def perform (t : Task) (environment : List (String × String)) (look : String → Target)
    (input : ByteArray) : Outcome :=
  match Options.fromEnvironment environment with
  | .error e => obstructed "" (.invalidArgument e.message)
  | .ok read =>
    let warnings := String.join (read.warnings.map (· ++ "\n"))
    match options t read.options with
    | .error e => obstructed warnings (.invalidArgument e.message)
    | .ok options =>
      match String.fromUTF8? input with
      | none => .unusable
      | some text =>
        let source : Source :=
          { text := String.ofList (Text.unifyNewlines text.toList), file := Path.normalise t.input }
        match preprocess source options with
        | .error r => obstructed warnings (.ofReport r)
        | .ok r => delivered t look warnings r

/-- The outcome of the command where `look` tells what paths lead to. -/
def run (arguments : List String) (environment : List (String × String))
    (look : String → Target) : Outcome :=
  match Request.ofArguments arguments with
  | none => .unusable
  | some .version => { exit := .success, printed := versionText }
  | some (.task t) =>
    match t.output.map look, look t.input with
    | some .invalid, _ => .brokenOff ""
    | some .directory, _ => .unusable
    | _, .invalid => .brokenOff ""
    | _, .file input => perform t environment look input
    | _, _ => .unusable

end Command

end CPreprocessor
