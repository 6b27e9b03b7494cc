import CPreprocessor.Text.Console
import CPreprocessor.Text.Character
import CPreprocessor.Location
import CPreprocessor.Journal
import CPreprocessor.Token
import CPreprocessor.Source
import CPreprocessor.Render
import CPreprocessor.Macro.Table
import CPreprocessor.Expansion.Expander
import CPreprocessor.Condition.Defined
import CPreprocessor.Condition.Evaluator
import CPreprocessor.Snippet
import CPreprocessor.Directive.Run
import CPreprocessor.Command.Folder
import CPreprocessor.Main
import CPreprocessor.Proofs.Expansion.Machine
import CPreprocessor.Proofs.Condition.Acceptance
import CPreprocessor.Proofs.Directive.Misquotation
import CPreprocessor.Proofs.Directive.FatalError
import CPreprocessor.Proofs.Directive.PrintedText
import CPreprocessor.Proofs.Render.RoundTrip
import CPreprocessor.Proofs.Source.Tokenize
import CPreprocessor.Proofs.Expansion.Concatenation
import CPreprocessor.Proofs.Expansion.ActiveSet
import CPreprocessor.Proofs.Expansion.Joining
import CPreprocessor.Proofs.Expansion.Placemarker
import CPreprocessor.Proofs.Macro.Reachable
import CPreprocessor.Proofs.Except
import CPreprocessor.Proofs.Expansion.Checked
import CPreprocessor.Proofs.Condition.Conversion
import CPreprocessor.Proofs.Directive.Checked
import CPreprocessor.Proofs.Macro.Checked
import CPreprocessor.Proofs.Condition.Checked
import CPreprocessor.Proofs.Directive.LineByLine
import CPreprocessor.Proofs.Directive.NestedLines
import CPreprocessor.Proofs.Directive.Frames
import CPreprocessor.Proofs.Directive.Composition
import CPreprocessor.Proofs.Directive.KeptComments
import CPreprocessor.Proofs.Condition.Arithmetic
import CPreprocessor.Proofs.Condition.Skipped
import CPreprocessor.Proofs.Condition.Answers
import CPreprocessor.Proofs.Directive.DefinedMacro
import CPreprocessor.Proofs.Render.SourceText
import CPreprocessor.Proofs.Macro.Printing
import CPreprocessor.Proofs.Macro.History
import CPreprocessor.Proofs.Directive.MessageLine
import CPreprocessor.Proofs.Directive.Steps
import CPreprocessor.Proofs.Directive.Verdicts
import CPreprocessor.Proofs.Directive.LiveText
import CPreprocessor.Proofs.Directive.ErrorCap
import CPreprocessor.Proofs.Directive.EvaluatedFault
import CPreprocessor.Proofs.Source.Offset
import CPreprocessor.Proofs.Source.Composition
import CPreprocessor.Proofs.Expansion.Stringize
import CPreprocessor.Proofs.Directive.QuotedLine
import CPreprocessor.Proofs.Expansion.Limit
import CPreprocessor.Proofs.Expansion.BoundName
import CPreprocessor.Proofs.Expansion.Chain
import CPreprocessor.Proofs.Expansion.FreshName
import CPreprocessor.Proofs.Expansion.Settled
import CPreprocessor.Proofs.Expansion.Provenance
import CPreprocessor.Proofs.Directive.NamedValue
import CPreprocessor.Proofs.Condition.LoneConstant
import CPreprocessor.Proofs.Condition.CharacterCount
import CPreprocessor.Proofs.Expansion.AsciiText
import CPreprocessor.Proofs.Directive.StatedCondition
import CPreprocessor.Proofs.Macro.WellFormed
