import CPreprocessor.Report

/-!
Diagnostics, and the journal that collects them during a run. A run goes on after an error, so that
it can tell of all of them, until the journal holds as many errors as its limit allows.
-/

namespace CPreprocessor

/-- One entry of a journal. An error is fatal when it ended the run. -/
inductive Diagnostic
  | error (report : Report) (fatal : Bool)
  | warning (message : String) (location : Option Location)
deriving DecidableEq, Inhabited

namespace Diagnostic

def isError : Diagnostic → Bool
  | error .. => true
  | warning .. => false

def isFatal : Diagnostic → Bool
  | error _ fatal => fatal
  | warning .. => false

/-- The bare description, without place or quotation. -/
def message : Diagnostic → String
  | error report _ => report.message
  | warning message _ => message

def location : Diagnostic → Option Location
  | error report _ => report.location
  | warning _ location => location

def report? : Diagnostic → Option Report
  | error report _ => some report
  | warning .. => none

/-- The text shown to the user. -/
def render : Diagnostic → String
  | error report _ => report.render
  | warning message (some location) => location.render ++ ": warning: " ++ message
  | warning message none => "warning: " ++ message

end Diagnostic

/-- `n` of a thing, with the plural ending for every number but one. -/
def counted (n : Nat) (thing : String) : String :=
  toString n ++ " " ++ thing ++ if n = 1 then "" else "s"

/-- Diagnostics in the order in which they were found, and the number of errors that is too many. -/
structure Journal where
  limit : Int := 100
  entries : List Diagnostic := []
deriving Inhabited

namespace Journal

def add (j : Journal) (d : Diagnostic) : Journal := { j with entries := j.entries ++ [d] }

def error (j : Journal) (report : Report) (fatal : Bool) : Journal := j.add (.error report fatal)

def warning (j : Journal) (message : String) (location : Option Location) : Journal :=
  j.add (.warning message location)

/-- The journal with its entries removed and its limit kept. -/
def clear (j : Journal) : Journal := { j with entries := [] }

def errors (j : Journal) : List Diagnostic := j.entries.filter Diagnostic.isError

def warnings (j : Journal) : List Diagnostic := j.entries.filter fun d => !d.isError

def errorCount (j : Journal) : Nat := j.errors.length

def warningCount (j : Journal) : Nat := j.warnings.length

def hasErrors (j : Journal) : Bool := j.entries.any Diagnostic.isError

/-- Whether as many errors were recorded as the limit allows. -/
def isFull (j : Journal) : Bool := j.limit ≤ j.errorCount

/-- All errors, an empty line after each, then all warnings, then the counts. -/
def summary (j : Journal) : String :=
  "\n".intercalate <|
    j.errors.flatMap (fun d => [d.render, ""]) ++ j.warnings.map Diagnostic.render ++
      ["\n" ++ counted j.errorCount "error" ++ ", " ++ counted j.warningCount "warning"]

/-- The first error that no handler of this library takes. -/
def uncaught? (j : Journal) : Option Report :=
  j.entries.findSome? fun d => d.report?.filter fun r => !r.category.isOwn

/-- The failure of a run that recorded an error. -/
def failure? (j : Journal) : Option Report :=
  if j.hasErrors then some { category := .failedRun, message := j.summary } else none

end Journal

end CPreprocessor
