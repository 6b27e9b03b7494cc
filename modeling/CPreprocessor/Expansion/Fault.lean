import CPreprocessor.Report

/-!
What can go wrong in the expansion of a macro invocation.
-/

namespace CPreprocessor

/-- Why an invocation cannot be expanded. -/
inductive ExpansionFault
  /-- a variadic macro expects at least so many arguments, any other exactly so many -/
  | argumentCount (expected actual : Int) (variadic : Bool)
  /-- the tokens end before the argument list does -/
  | unterminatedInvocation
  /-- the operands of a `##` do not join to a single token -/
  | paste (left right : String)
  | recursionLimit (limit : Int)
deriving DecidableEq, Inhabited

namespace ExpansionFault

def category : ExpansionFault → Category
  | argumentCount .. => .argumentCount
  | unterminatedInvocation => .unterminatedInvocation
  | paste .. => .paste
  | recursionLimit .. => .recursionLimit

/-- The reason alone, without the macro. -/
def reason : ExpansionFault → String
  | argumentCount expected actual variadic =>
    "expects " ++ (if variadic then "at least " else "") ++ toString expected ++
      (if expected = 1 then " argument" else " arguments") ++ ", got " ++ toString actual
  | unterminatedInvocation => "unterminated argument list"
  | paste left right =>
    "pasting '" ++ left ++ "' and '" ++ right ++ "' does not give a valid preprocessing token"
  | recursionLimit limit => "expansion nested deeper than " ++ toString limit ++ " levels"

def hint? : ExpansionFault → Option String
  | unterminatedInvocation => some "add closing ')' to complete the macro call"
  | recursionLimit _ => some "raise max_expansion_depth or check for runaway macros"
  | _ => none

/-- The message on the expansion of a macro. -/
def messageOn (name reason : String) : String :=
  "error expanding macro '" ++ name ++ "': " ++ reason

end ExpansionFault

/-- A failed invocation: the macro, the reason, and the place of its name. -/
structure ExpansionError where
  name : String
  fault : ExpansionFault
  location : Option Location
deriving DecidableEq, Inhabited

namespace ExpansionError

/-- The report of a failed invocation, quoting a line of the source where one is given. -/
def report (e : ExpansionError) (sourceLine : Option String) : Report where
  category := e.fault.category
  message := ExpansionFault.messageOn e.name e.fault.reason
  location := e.location
  hint := e.fault.hint?
  sourceLine := sourceLine

end ExpansionError

end CPreprocessor
