import CPreprocessor.Report
import CPreprocessor.Text.Character

/-!
What can go wrong in the evaluation of a condition.
-/

namespace CPreprocessor

/-- Why a condition has no value. -/
inductive ConditionFault
  | noExpression
  | nestedTooDeeply
  | tooManyParentheses
  | expectedColon
  | expectedClose
  | stringLiteral
  /-- the condition ends after the token spelled `previous` -/
  | missingOperand (previous : String)
  | unexpected (text : String)
  | definedWithoutName
  | definedWithoutClose
  | floatingConstant
  | invalidInteger (text : String)
  | invalidSuffix (suffix : String)
  | invalidOctal (text : String)
  /-- a decimal constant of more digits than are converted -/
  | tooManyDigits (count : Nat)
  | integerTooLarge (text : String)
  | invalidEscape (text : String)
  /-- by `/`, or by `%` for a remainder -/
  | divisionByZero (remainder : Bool)
  | shiftCount (count : Int)
deriving DecidableEq, Inhabited

namespace ConditionFault

/-- How many parentheses may be open at once. -/
def parenthesisLimit : Nat := 32

def category : ConditionFault → Category
  | divisionByZero _ => .divisionByZero
  | shiftCount _ => .expression
  | tooManyDigits _ => .conversion
  | _ => .expressionSyntax

def message : ConditionFault → String
  | noExpression => "#if with no expression"
  | nestedTooDeeply => "#if expression nested too deeply"
  | tooManyParentheses =>
    "#if expression nested too deeply (more than " ++ toString parenthesisLimit ++
      " levels of parentheses)"
  | expectedColon => "expected ':' in conditional expression"
  | expectedClose => "missing ')' in expression"
  | stringLiteral => "string literal in preprocessor expression"
  | missingOperand previous => "missing operand after '" ++ previous ++ "'"
  | unexpected text => "unexpected token '" ++ text ++ "' in expression"
  | definedWithoutName => "operator 'defined' requires an identifier"
  | definedWithoutClose => "missing ')' after 'defined'"
  | floatingConstant => "floating constant in preprocessor expression"
  | invalidInteger text => "invalid integer constant '" ++ text ++ "'"
  | invalidSuffix suffix => "invalid suffix '" ++ suffix ++ "' on integer constant"
  | invalidOctal text => "invalid digit in octal constant '" ++ text ++ "'"
  | tooManyDigits count =>
    "Exceeds the limit (" ++ toString Text.digitLimit ++
      " digits) for integer string conversion: value has " ++ toString count ++
      " digits; use sys.set_int_max_str_digits() to increase the limit"
  | integerTooLarge text => "integer constant '" ++ text ++ "' is too large for its type"
  | invalidEscape text => "invalid escape sequence in character constant " ++ text
  | divisionByZero remainder => (if remainder then "modulo" else "division") ++ " by zero in #if"
  | shiftCount count => "shift count " ++ toString count ++ " is out of range for a 64-bit value"

/-- Whether a fault is one of reading, which the values of operands have no say in. -/
def ofReading (f : ConditionFault) : Bool :=
  f.category = .expressionSyntax || f.category = .conversion

/-- The report of a fault at a place, quoting a line of the source where one is given. Only an error of
this library is told with a place. -/
def report (f : Located ConditionFault) (sourceLine : Option String) : Report where
  category := f.cause.category
  message := f.cause.message
  location := if f.cause.category.isOwn then f.location else none
  sourceLine := if f.cause.category.isOwn then sourceLine else none

end ConditionFault

end CPreprocessor
