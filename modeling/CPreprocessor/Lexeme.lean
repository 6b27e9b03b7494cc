import CPreprocessor.Text.Character
import CPreprocessor.Token

/-!
The lexical grammar, on text without line splices. `Lexeme.first` tells the kind and the extent of
the lexeme at the start of a text; `lexemes` cuts a whole text. No character is lost: the lexemes of
a text spell the text (`flatMap_text_lexemes`). Text that is no token becomes a fault that reaches
to the end of its line, so that the next line is read as if nothing had happened.
-/

namespace CPreprocessor

/-- Why a text is no token. -/
inductive LexFault
  | unterminatedComment
  | unterminatedString
  | unterminatedCharacter
  | emptyCharacter
  /-- `\x` without a hexadecimal digit -/
  | hexEscapeWithoutDigits
  /-- `\u` with fewer than four hexadecimal digits -/
  | incompleteShortName
  /-- `\U` with fewer than eight hexadecimal digits -/
  | incompleteLongName
  /-- a backslash before a character that begins no escape, or at the end of the line -/
  | invalidEscape (found : Option Char)
deriving DecidableEq, Inhabited

namespace Lexeme

/-- Blanks within a line. -/
def isBlank (c : Char) : Bool := c == ' ' || c == '\t' || c == '\x0c' || c == '\x0b' || c == '\r'

/-- Characters that begin an identifier. -/
def isNameStart (c : Char) : Bool := c.isAlpha || c == '_' || c == '$'

/-- Characters that continue an identifier. -/
def isNameChar (c : Char) : Bool := isNameStart c || c.isDigit

def isOctalDigit (c : Char) : Bool := '0' ≤ c && c ≤ '7'

def isHexDigit (c : Char) : Bool := c.isDigit || ('a' ≤ c && c ≤ 'f') || ('A' ≤ c && c ≤ 'F')

/-- Letters after which a sign continues a number. -/
def isExponentMark (c : Char) : Bool := c == 'e' || c == 'E' || c == 'p' || c == 'P'

def isSign (c : Char) : Bool := c == '+' || c == '-'

/-- Characters that make an escape with the backslash before them alone. -/
def isSimpleEscape (c : Char) : Bool :=
  c == '\'' || c == '"' || c == '?' || c == '\\' || c == 'a' || c == 'b' || c == 'f' || c == 'n' ||
    c == 'r' || c == 't' || c == 'v'

/-- The punctuators, longer ones first. -/
def punctuators : List (List Char) :=
  [['<', '<', '='], ['>', '>', '='], ['.', '.', '.'],
   ['-', '>'], ['+', '+'], ['-', '-'], ['<', '<'], ['>', '>'], ['<', '='], ['>', '='],
   ['=', '='], ['!', '='], ['&', '&'], ['|', '|'],
   ['*', '='], ['/', '='], ['%', '='], ['+', '='], ['-', '='], ['&', '='], ['^', '='], ['|', '='],
   ['#', '#'],
   ['['], [']'], ['('], [')'], ['\x7b'], ['\x7d'], ['.'], ['&'], ['*'], ['+'], ['-'], ['~'], ['!'],
   ['/'], ['%'], ['<'], ['>'], ['^'], ['|'], ['?'], [':'], [';'], ['='], [','], ['#']]

/-- The names that give a following literal an encoding. -/
def encodingPrefixes : List (List Char) := [['L'], ['u'], ['U'], ['u', '8']]

/-- How many characters at the start of `cs` satisfy `p`. -/
def spanLength (p : Char → Bool) (cs : List Char) : Nat := (cs.takeWhile p).length

/-- The rest of a number. It is loose: digits, letters and points in any order, and a sign after an
exponent mark. -/
def numberLength : List Char → Nat
  | [] => 0
  | [c] => if isNameChar c || c == '.' then 1 else 0
  | c :: d :: cs =>
    if isExponentMark c && isSign d then numberLength cs + 2
    else if isNameChar c || c == '.' then numberLength (d :: cs) + 1
    else 0

/-- The text up to and including the end mark of a block comment. -/
def commentLength : List Char → Except LexFault Nat
  | [] => .error .unterminatedComment
  | '*' :: '/' :: _ => .ok 2
  | _ :: cs => (commentLength cs).map (· + 1)

/-- The hexadecimal digits of a universal character name, exactly `width` of them. -/
def universalLength (width : Nat) (fault : LexFault) (cs : List Char) : Except LexFault Nat :=
  if spanLength isHexDigit (cs.take width) = width then .ok width else .error fault

/-- The rest of an escape after its backslash. -/
def escapeLength : List Char → Except LexFault Nat
  | [] => .error (.invalidEscape none)
  | c :: cs =>
    if isSimpleEscape c then .ok 1
    else if isOctalDigit c then .ok (spanLength isOctalDigit (cs.take 2) + 1)
    else if c = 'x' then
      if spanLength isHexDigit cs = 0 then .error .hexEscapeWithoutDigits
      else .ok (spanLength isHexDigit cs + 1)
    else if c = 'u' then (universalLength 4 .incompleteShortName cs).map (· + 1)
    else if c = 'U' then (universalLength 8 .incompleteLongName cs).map (· + 1)
    else .error (.invalidEscape (if c = '\n' then none else some c))

/-- The fault of a literal without its closing mark `quote`. -/
def unterminated (quote : Char) : LexFault :=
  if quote = '"' then .unterminatedString else .unterminatedCharacter

/-- The body of a literal and its closing mark. Escapes are checked, not decoded. -/
def bodyLength (quote : Char) : List Char → Except LexFault Nat
  | [] => .error (unterminated quote)
  | c :: cs =>
    if c = '\n' then .error (unterminated quote)
    else if c = quote then .ok 1
    else if c = '\\' then
      match escapeLength cs with
      | .error fault => .error fault
      | .ok n => (bodyLength quote (cs.drop n)).map (· + (n + 1))
    else (bodyLength quote cs).map (· + 1)
termination_by cs => cs.length
decreasing_by
  · simp only [List.length_cons, List.length_drop]; omega
  · simp

/-- The rest of a literal after its opening mark `quote`. -/
def literalLength (quote : Char) (cs : List Char) : Except LexFault (Kind × Nat) :=
  match bodyLength quote cs with
  | .error fault => .error fault
  | .ok n =>
    if quote = '"' then .ok (.string, n)
    else if n = 1 then .error .emptyCharacter
    else .ok (.character, n)

/-- The rest of an identifier, or of a literal that it gives an encoding. -/
def nameLength (c : Char) (cs : List Char) : Except LexFault (Kind × Nat) :=
  let n := spanLength isNameChar cs
  if encodingPrefixes.contains (c :: cs.take n) then
    match cs.drop n with
    | '"' :: rest => (literalLength '"' rest).map fun (kind, m) => (kind, n + 1 + m)
    | '\'' :: rest => (literalLength '\'' rest).map fun (kind, m) => (kind, n + 1 + m)
    | _ => .ok (.identifier, n)
  else .ok (.identifier, n)

/-- The rest of the longest punctuator at the start of a text, or a character on its own. -/
def punctuatorLength (c : Char) (cs : List Char) : Kind × Nat :=
  match punctuators.find? (·.isPrefixOf (c :: cs)) with
  | some spelling => (.punctuator, spelling.length - 1)
  | none => (.other, 0)

/-- The kind of the lexeme that begins with `c` before `cs`, and how many characters of `cs` belong
to it. -/
def first (c : Char) (cs : List Char) : Except LexFault (Kind × Nat) :=
  if c = '\n' then .ok (.newline, 0)
  else if isBlank c then .ok (.whitespace, spanLength isBlank cs)
  else if c = '/' && cs.head? = some '/' then .ok (.comment, spanLength (· ≠ '\n') cs)
  else if c = '/' && cs.head? = some '*' then
    (commentLength cs.tail).map fun n => (.comment, n + 1)
  else if Text.isDigit c || (c = '.' && cs.head?.any Text.isDigit) then
    .ok (.number, numberLength cs)
  else if isNameStart c then nameLength c cs
  else if c = '"' || c = '\'' then literalLength c cs
  else .ok (punctuatorLength c cs)

/-- How many of the characters after the first one a fault covers: an unterminated comment all of
them, anything else the rest of its line. -/
def faultLength (fault : LexFault) (cs : List Char) : Nat :=
  if fault = .unterminatedComment then cs.length else spanLength (· ≠ '\n') cs

end Lexeme

/-- A piece of text between two cuts. -/
inductive Lexeme
  | token (kind : Kind) (text : List Char)
  | fault (cause : LexFault) (skipped : List Char)
deriving DecidableEq, Inhabited

namespace Lexeme

/-- The characters of a lexeme. -/
def text : Lexeme → List Char
  | token _ text => text
  | fault _ skipped => skipped

end Lexeme

/-- The lexemes of a text. -/
def lexemes : List Char → List Lexeme
  | [] => []
  | c :: cs =>
    match Lexeme.first c cs with
    | .ok (kind, n) => .token kind (c :: cs.take n) :: lexemes (cs.drop n)
    | .error cause =>
      let n := Lexeme.faultLength cause cs
      .fault cause (c :: cs.take n) :: lexemes (cs.drop n)
termination_by cs => cs.length
decreasing_by all_goals simp only [List.length_cons, List.length_drop]; omega

theorem flatMap_text_lexemes (cs : List Char) : (lexemes cs).flatMap Lexeme.text = cs := by
  fun_induction lexemes cs <;> simp_all [Lexeme.text]

end CPreprocessor
