import CPreprocessor.Report
import CPreprocessor.Text.Character

/-!
What can be wrong with a directive, and the error that a directive asks for.
-/

namespace CPreprocessor

/-- Why a directive is refused. Directives are given by their names. -/
inductive DirectiveFault
  /-- a `#` before something that is no name -/
  | invalid
  | unknown (directive : String)
  | missingName (directive : String)
  | nameNotIdentifier
  | withoutIf (directive : String)
  /-- after the `#else` of a conditional that began in line `line` -/
  | afterElse (directive : String) (line : Int)
  | unmatchedEndif
  | unterminated (directive : String)
  /-- an `#error` directive -/
  | user (text : String)
deriving DecidableEq, Inhabited

namespace DirectiveFault

def category : DirectiveFault → Category
  | unmatchedEndif => .unmatchedEndif
  | unterminated _ => .unterminatedConditional
  | user _ => .user
  | _ => .directive

/-- The text of a directive with a message. -/
def withMessage (directive text : String) : String :=
  String.ofList (Text.stripRight ("#" ++ directive ++ " " ++ text).toList)

def message : DirectiveFault → String
  | invalid => "invalid preprocessing directive"
  | unknown directive => "invalid preprocessing directive #" ++ directive
  | missingName directive => "no macro name given in #" ++ directive ++ " directive"
  | nameNotIdentifier => "macro names must be identifiers"
  | withoutIf directive => "#" ++ directive ++ " without #if"
  | afterElse directive _ => "#" ++ directive ++ " after #else"
  | unmatchedEndif => "#endif without #if"
  | unterminated directive => "unterminated #" ++ directive
  | user text => withMessage "error" text

def hint? : DirectiveFault → Option String
  | afterElse _ line =>
    some ("the #else for this conditional is at line " ++ toString line ++ " or later")
  | unterminated _ => some "add a matching #endif"
  | _ => none

/-- The report of a fault, quoting a line of the source where one is given. -/
def report (f : Located DirectiveFault) (sourceLine : Option String) : Report where
  category := f.cause.category
  message := f.cause.message
  location := f.location
  hint := f.cause.hint?
  sourceLine := sourceLine

end DirectiveFault

end CPreprocessor
