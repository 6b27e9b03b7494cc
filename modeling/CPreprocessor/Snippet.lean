import CPreprocessor.Condition.Defined
import CPreprocessor.Condition.Evaluator
import CPreprocessor.Expansion.Expander
import CPreprocessor.Location
import CPreprocessor.Render

/-!
Expansion and evaluation of a piece of text on its own, outside of any run.
-/

namespace CPreprocessor

namespace ExpansionError

/-- The report of a failed invocation in a listed source. -/
def reportIn (e : ExpansionError) (listing : Listing) : Report :=
  e.report (e.location.bind listing.quote?)

end ExpansionError

/-- The text that `text` expands to. -/
def expandText (table : Table) (text : String) : Except Report String :=
  match Source.tokens { text } with
  | .error report => .error report
  | .ok tokens =>
    match Expander.expand { table } tokens with
    | .error error => .error (error.reportIn (.ofText text))
    | .ok expansion => .ok (render expansion.tokens)

/-- The value of the expression that tokens form, its `defined` operators resolved first where
somebody answers them. The stack allows a nesting of `nestingLimit`. -/
def evaluateTokens (isDefined : Option (String → Bool)) (location : Option Location)
    (tokens : List Token) (nestingLimit : Nat := usualNestingLimit) :
    Except (Located ConditionFault) Value :=
  match isDefined with
  | none => (evaluate { location, nestingLimit } tokens).result
  | some isDefined =>
    match Defined.resolve isDefined tokens with
    | .error fault => .error fault
    | .ok tokens => (evaluate { isDefined, location, nestingLimit } tokens).result

/-- Whether the condition `text` holds in a table, on a stack that allows a nesting of `nestingLimit`. -/
def conditionHolds (table : Table) (text : String) (nestingLimit : Nat := usualNestingLimit) :
    Except Report Bool :=
  match Source.tokens { text } with
  | .error report => .error report
  | .ok tokens =>
    match Defined.resolve table.isDefined tokens with
    | .error fault => .error (ConditionFault.report fault none)
    | .ok tokens =>
      match Expander.expand { table } tokens with
      | .error error => .error (error.reportIn (.ofText text))
      | .ok expansion =>
        let setting : Setting := { isDefined := table.isDefined, nestingLimit }
        match (evaluate setting expansion.tokens).result with
        | .error fault => .error (ConditionFault.report fault none)
        | .ok value => .ok value.truthy

end CPreprocessor
