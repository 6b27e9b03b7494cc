import CPreprocessor.Lexeme
import CPreprocessor.Text.Console

/-!
Printing tokens. Spellings are written one after the other, with a blank between two tokens that
would otherwise read as something else: `-` before `-x` gives `- -x`.
-/

namespace CPreprocessor

namespace Token

/-- Whether `left` and `right` written side by side would not read as these two tokens. -/
def needsSeparator (left right : Token) : Bool :=
  match left.text.toList, right.text.toList with
  | [], _ => false
  | _, [] => false
  | l :: ls, r :: _ =>
    match left.kind, right.kind with
    | .identifier, .identifier | .identifier, .number | .number, .identifier | .number, .number =>
      true
    | .identifier, .string | .identifier, .character => Lexeme.encodingPrefixes.contains (l :: ls)
    | .number, kind =>
      !kind.isLayout &&
        (r == '.' || (Lexeme.isExponentMark ((l :: ls).getLastD l) && Lexeme.isSign r))
    | .punctuator, .number => l == '.' && ls.isEmpty && Text.isDigit r
    | .punctuator, .punctuator =>
      let joined := l :: ls ++ [r]
      joined == ['/', '/'] || joined == ['/', '*'] ||
        Lexeme.punctuators.any fun p => (l :: ls).length < p.length && joined.isPrefixOf p
    | _, _ => false

/-- A token in a log: kind, quoted spelling and place. -/
def describe (t : Token) : String :=
  let place := toString t.location.line ++ ":" ++ toString t.location.column
  let spelling :=
    if t.kind = .endOfInput || t.kind = .placemarker then "" else Text.quoted t.text ++ ", "
  "Token(" ++ t.kind.name ++ ", " ++ spelling ++ place ++ ")"

/-- Whether a token is printed at all. -/
def isPrinted (t : Token) : Bool := t.kind ≠ .endOfInput && t.kind ≠ .placemarker

end Token

/-- The text of tokens that follow `previous`. -/
def renderAfter (previous : Token) : List Token → List Char
  | [] => []
  | t :: ts =>
    (if previous.needsSeparator t then ' ' :: t.text.toList else t.text.toList) ++ renderAfter t ts

/-- The text of a list of tokens that are all printed. -/
def renderPrinted : List Token → List Char
  | [] => []
  | t :: ts => t.text.toList ++ renderAfter t ts

/-- The text of a list of tokens. -/
def render (tokens : List Token) : String :=
  String.ofList (renderPrinted (tokens.filter Token.isPrinted))

end CPreprocessor
