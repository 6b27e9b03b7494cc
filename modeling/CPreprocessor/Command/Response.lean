import CPreprocessor.Journal

/-!
How the command ends: its exit code and what it says on the error stream.
-/

namespace CPreprocessor

/-- How the command ends. -/
inductive ExitCode
  | success
  /-- the run reported an error, or did not get to its end -/
  | failure
  /-- an option or the input cannot be used -/
  | invalidArguments
  | internalError
deriving DecidableEq, Inhabited

namespace ExitCode

def number : ExitCode → Nat
  | success => 0
  | failure => 1
  | invalidArguments => 2
  | internalError => 3

def name : ExitCode → String
  | success => "SUCCESS"
  | failure => "BUILD_ERROR"
  | invalidArguments => "INVALID_ARGS"
  | internalError => "INTERNAL_ERROR"

end ExitCode

/-- Why the command cannot finish a run. -/
inductive Obstacle
  /-- an error of this library in a predefined macro -/
  | report (r : Report)
  | unreadableInput (reason : String)
  | invalidArgument (reason : String)
  | internal (reason : String)
deriving DecidableEq, Inhabited

namespace Obstacle

/-- What an error that ends a run is to the command. -/
def ofReport (r : Report) : Obstacle :=
  if r.category.isOwn then report r else invalidArgument r.message

def exitCode : Obstacle → ExitCode
  | report _ => .failure
  | unreadableInput _ | invalidArgument _ => .invalidArguments
  | internal _ => .internalError

def text : Obstacle → String
  | report r => r.render ++ "\n"
  | unreadableInput reason => "Error: cannot read input: " ++ reason ++ "\n"
  | invalidArgument reason => "Error: " ++ reason ++ "\n"
  | internal reason => "Internal error: " ++ reason ++ "\n"

end Obstacle

namespace Diagnostic

/-- The number of errors among diagnostics. -/
def errorCount (diagnostics : List Diagnostic) : Nat := (diagnostics.filter isError).length

/-- All diagnostics in order, and the number of errors if there are any. -/
def printed (diagnostics : List Diagnostic) : String :=
  let errors := errorCount diagnostics
  String.join (diagnostics.map fun d => d.render ++ "\n") ++
    if errors = 0 then "" else counted errors "error" ++ " generated\n"

/-- How a run with these diagnostics ends. -/
def exitCode (diagnostics : List Diagnostic) : ExitCode :=
  if errorCount diagnostics = 0 then .success else .failure

end Diagnostic

end CPreprocessor
