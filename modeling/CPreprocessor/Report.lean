import CPreprocessor.Location

/-!
What is told about one error: its category, a message, and optionally a place, the source line at
that place and a hint. The categories of the errors of this library form a tree with
`Category.preprocessor` at its root.
-/

namespace CPreprocessor

/-- The kinds of error, from the general ones to their special cases. -/
inductive Category
  /-- any error of this library -/
  | preprocessor
  /-- a run that recorded errors; its message is their summary -/
  | failedRun
  /-- text that is no token -/
  | lexical
  /-- a malformed macro definition -/
  | definition
  /-- a macro invocation that cannot be expanded -/
  | expansion
  | argumentCount
  | unterminatedInvocation
  | paste
  | recursionLimit
  /-- a condition without a value -/
  | expression
  | expressionSyntax
  | divisionByZero
  /-- a misplaced or malformed directive -/
  | directive
  | unmatchedEndif
  | unterminatedConditional
  /-- an `#error` directive that was reached -/
  | user
  /-- a numeral that is too long to be converted to a number; no error of this library -/
  | conversion
deriving DecidableEq, Inhabited

namespace Category

/-- The category that a category is a special case of. -/
def parent? : Category → Option Category
  | preprocessor | conversion => none
  | failedRun | lexical | definition | expansion | expression | directive | user =>
    some preprocessor
  | argumentCount | unterminatedInvocation | paste | recursionLimit => some expansion
  | expressionSyntax | divisionByZero => some expression
  | unmatchedEndif | unterminatedConditional => some directive

/-- The category with all those above it. No chain is longer than three. -/
def ancestry (c : Category) : List Category :=
  match c.parent? with
  | none => [c]
  | some p =>
    match p.parent? with
    | none => [c, p]
    | some q => [c, p, q]

/-- Whether the errors of a category are those of this library. Its handlers take no others. -/
def isOwn (c : Category) : Bool := c.ancestry.contains .preprocessor

end Category

/-- One error as it is told. -/
structure Report where
  category : Category
  message : String
  location : Option Location := none
  hint : Option String := none
  sourceLine : Option String := none
deriving DecidableEq, Inhabited

namespace Report

/-- The line that points at column `column` of a source line quoted above it. -/
def caretLine (column : Int) : String :=
  String.ofList (List.replicate (column + 3).toNat ' ') ++ "^"

/-- The quoted source line and the caret under it. The line is quoted only at a known place, and the
caret is drawn only for a column that exists. -/
def quotation (r : Report) : List String :=
  match r.sourceLine, r.location with
  | some line, some location =>
    ("    " ++ line) :: if 0 < location.column then [caretLine location.column] else []
  | _, _ => []

/-- The lines of a report: message, quotation and hint. An empty hint is not shown. -/
def lines (r : Report) : List String :=
  let heading :=
    match r.location with
    | some location => location.render ++ ": error: " ++ r.message
    | none => "error: " ++ r.message
  let advice :=
    match r.hint with
    | some hint => if hint.isEmpty then [] else ["hint: " ++ hint]
    | none => []
  heading :: r.quotation ++ advice

/-- The whole text of a report. The summary of a failed run is a finished text already, and of an error
that is not of this library nothing but its message is known. -/
def render (r : Report) : String :=
  if r.category = .failedRun || !r.category.isOwn then r.message else "\n".intercalate r.lines

end Report

end CPreprocessor
