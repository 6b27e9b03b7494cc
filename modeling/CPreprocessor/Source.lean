import CPreprocessor.Lexeme
import CPreprocessor.Location
import CPreprocessor.Report

/-!
Sources: named texts, read as tokens. `Source.scan` reads all of a source and keeps each fault with
the blank that stands in for the text it covers; `Source.tokens` stops at the first fault.
-/

namespace CPreprocessor

namespace LexFault

def message : LexFault → String
  | unterminatedComment => "unterminated comment"
  | unterminatedString => "unterminated string literal"
  | unterminatedCharacter => "unterminated character constant"
  | emptyCharacter => "empty character constant"
  | hexEscapeWithoutDigits => "\\x used with no following hex digits"
  | incompleteShortName => "incomplete universal character name \\u"
  | incompleteLongName => "incomplete universal character name \\U"
  | invalidEscape found => "invalid escape sequence '\\" ++ String.ofList found.toList ++ "'"

def hint? : LexFault → Option String
  | unterminatedComment => some "add '*/' to close the comment"
  | unterminatedString => some "add closing \" to complete the string literal"
  | unterminatedCharacter => some "add closing ' to complete the character constant"
  | emptyCharacter => none
  | hexEscapeWithoutDigits => some "write the value as \\xNN"
  | incompleteShortName => some "\\u needs exactly 4 hex digits"
  | incompleteLongName => some "\\U needs exactly 8 hex digits"
  | invalidEscape _ => some "use '\\\\' for a literal backslash"

end LexFault

/-- A text with the name of its file and the number of its first line. -/
structure Source where
  text : String
  file : String := "<input>"
  firstLine : Int := 1
deriving DecidableEq, Inhabited

/-- A token as it was read, with the fault of the text it stands in for. -/
structure Scanned where
  token : Token
  fault : Option LexFault := none
deriving DecidableEq, Inhabited

namespace Source

def locate (s : Source) (p : Place) : Location := ⟨s.file, p.line, p.column⟩

/-- The token of a lexeme at a place; a fault leaves a single blank. -/
def token (s : Source) (p : Place) : Lexeme → Scanned
  | .token kind text => { token := { kind, text := String.ofList text, location := s.locate p } }
  | .fault cause _ => { token := .blank (s.locate p), fault := some cause }

/-- Puts lexemes to their places: each begins at the first place not used up before it. -/
def settle (s : Source) : List Lexeme → List Place → List Scanned
  | [], _ => []
  | _ :: _, [] => []
  | l :: ls, p :: ps => s.token p l :: s.settle ls ((p :: ps).drop l.text.length)

/-- The places of the characters of a source, and of its end. -/
def places (s : Source) : List Place := CPreprocessor.places ⟨s.firstLine, 1⟩ s.text.toList

/-- All tokens of a source, without the end token. -/
def scan (s : Source) : List Scanned := s.settle (lexemes (despliced s.text.toList)) s.places

/-- The token at the end of a source. -/
def endToken (s : Source) : Token :=
  { kind := .endOfInput, text := "", location := s.locate (s.places.getLastD ⟨s.firstLine, 1⟩) }

/-- The text of line number `line`, as newlines cut it, without carriage returns at its end. -/
def lineText (s : Source) (line : Int) : String :=
  let text := (Text.newlineLines s.text.toList)[(line - s.firstLine).toNat]?.getD []
  String.ofList (text.reverse.dropWhile (· = '\r')).reverse

/-- The report of a fault at a place of this source. -/
def report (s : Source) (location : Location) (fault : LexFault) : Report where
  category := .lexical
  message := fault.message
  location := location
  hint := fault.hint?
  sourceLine := s.lineText location.line

/-- The report of a token's fault, if it has one. -/
def reportOf? (s : Source) (t : Scanned) : Option Report := t.fault.map (s.report t.token.location)

/-- The tokens of a source, without the end token, or the report of its first fault. -/
def tokens (s : Source) : Except Report (List Token) :=
  s.scan.mapM fun t =>
    match s.reportOf? t with
    | none => .ok t.token
    | some report => .error report

end Source

end CPreprocessor
