import CPreprocessor.Condition.Fault
import CPreprocessor.Condition.Value
import CPreprocessor.Lexeme

/-!
Integer and character constants.
-/

namespace CPreprocessor

namespace Constant

/-- The value of a digit in any base up to sixteen. -/
def digitValue (c : Char) : Nat :=
  if c.isDigit then c.toNat - 48
  else if 'a' ≤ c && c ≤ 'f' then c.toNat - 87
  else c.toNat - 55

/-- The number that digits denote in a base. -/
def number (base : Nat) (digits : List Char) : Nat :=
  digits.foldl (fun n c => base * n + digitValue c) 0

/-! ## Integer constants -/

/-- A way to write integers: the digits alone, without a suffix. -/
inductive IntegerForm
  | hexadecimal (digits : List Char)
  | binary (digits : List Char)
  /-- decimal or, after a zero, octal -/
  | plain (digits : List Char)
deriving DecidableEq, Inhabited

/-- Whether `c` may be part of a suffix. -/
def isSuffixChar (c : Char) : Bool := c == 'u' || c == 'U' || c == 'l' || c == 'L'

/-- The suffixes: `u` in either case and one or two `l` of one case, in either order. -/
def suffixes : List String :=
  ["", "u", "U"].flatMap fun u =>
    ["", "l", "L", "ll", "LL"].flatMap fun size => [u ++ size, size ++ u]

/-- Splits off the longest run of digits, which must not be empty, from the suffix after it. -/
def split (isDigit : Char → Bool) (text : List Char) : Option (List Char × List Char) :=
  let digits := text.takeWhile isDigit
  let suffix := text.dropWhile isDigit
  if digits.isEmpty || !suffix.all isSuffixChar then none else some (digits, suffix)

/-- The digits and the suffix of an integer constant. -/
def integerForm? : List Char → Option (IntegerForm × List Char)
  | '0' :: 'x' :: cs | '0' :: 'X' :: cs =>
    (split Lexeme.isHexDigit cs).map fun (digits, suffix) => (.hexadecimal digits, suffix)
  | '0' :: 'b' :: cs | '0' :: 'B' :: cs =>
    (split (fun c => c == '0' || c == '1') cs).map fun (digits, suffix) => (.binary digits, suffix)
  | cs => (split Char.isDigit cs).map fun (digits, suffix) => (.plain digits, suffix)

/-- The number that an integer constant denotes, unless it is octal with a digit above seven. -/
def IntegerForm.number? : IntegerForm → Option Nat
  | hexadecimal digits => some (number 16 digits)
  | binary digits => some (number 2 digits)
  | plain ['0'] => some 0
  | plain ('0' :: digits) => if digits.all Lexeme.isOctalDigit then some (number 8 digits) else none
  | plain digits => some (number 10 digits)

/-- How many decimal digits there are to convert. Digits of the other bases are not limited. -/
def IntegerForm.decimals : IntegerForm → Nat
  | hexadecimal _ | binary _ | plain ('0' :: _) => 0
  | plain digits => digits.length

/-- Whether a number that is no integer constant is a floating constant. -/
def isFloating (text : List Char) : Bool :=
  text.contains '.' ||
    (text.head?.any Char.isDigit &&
      ((text.dropWhile Char.isDigit).head?.any fun c => c == 'e' || c == 'E'))

/-- A text without a newline at its end. -/
def chomp (text : List Char) : List Char :=
  if text.getLast? = some '\n' then text.dropLast else text

/-- The value of a number. It is unsigned if its suffix says so, or if no signed value is that
large. -/
def integer (text : String) : Except ConditionFault Value :=
  match integerForm? (chomp text.toList) with
  | none =>
    if isFloating text.toList then .error .floatingConstant else .error (.invalidInteger text)
  | some (digits, suffix) =>
    if !suffixes.contains (String.ofList suffix) then
      .error (.invalidSuffix (String.ofList suffix))
    else
      match digits.number? with
      | none => .error (.invalidOctal text)
      | some n =>
        if Text.digitLimit < digits.decimals then .error (.tooManyDigits digits.decimals)
        else if Value.modulus ≤ n then .error (.integerTooLarge text)
        else .ok (.wrap n (suffix.any (fun c => c == 'u' || c == 'U') || Value.signedBound ≤ n))

/-! ## Character constants -/

/-- The code of an escape of a backslash and one character. -/
def simpleEscape? (c : Char) : Option Nat :=
  if c = 'n' then some 10
  else if c = 't' then some 9
  else if c = 'r' then some 13
  else if c = 'a' then some 7
  else if c = 'b' then some 8
  else if c = 'f' then some 12
  else if c = 'v' then some 11
  else if c = '\\' || c = '\'' || c = '"' || c = '?' then some c.toNat
  else none

/-- Hexadecimal digits as a code, if there are any and nothing else. -/
def hexCode? (digits : List Char) : Option Nat :=
  if digits.isEmpty || !digits.all Lexeme.isHexDigit then none else some (number 16 digits)

/-- The code of an escape after its backslash, and the length of the escape without it. -/
def escape? : List Char → Option (Nat × Nat)
  | [] => none
  | c :: cs =>
    match simpleEscape? c with
    | some code => some (code, 1)
    | none =>
      if Lexeme.isOctalDigit c then
        let digits := c :: (cs.take 2).takeWhile Lexeme.isOctalDigit
        some (number 8 digits, digits.length)
      else if c = 'x' then
        let digits := cs.takeWhile Lexeme.isHexDigit
        (hexCode? digits).map fun code => (code, digits.length + 1)
      else if c = 'u' then (hexCode? (cs.take 4)).map fun code => (code, 5)
      else if c = 'U' then (hexCode? (cs.take 8)).map fun code => (code, 9)
      else none

/-- The codes of the characters and escapes of a character constant's body. -/
def codes? : List Char → Option (List Nat)
  | [] => some []
  | c :: cs =>
    if c = '\\' then
      match escape? cs with
      | none => none
      | some (code, length) => (codes? (cs.drop length)).map (code :: ·)
    else (codes? cs).map (c.toNat :: ·)
termination_by cs => cs.length
decreasing_by all_goals simp only [List.length_cons, List.length_drop]; omega

/-- Packs codes into 32 bits, eight for each, and reads them as a signed number. -/
def packed (codes : List Nat) : Int :=
  ((codes.foldl (fun n code => n * 256 + code % 256) 0 : Nat) : Int).bmod 4294967296

/-- The value of a character constant. With an encoding it is the first code; a single character is
a signed byte; several are packed. -/
def character (text : String) : Except ConditionFault Value :=
  let encoding := text.toList.takeWhile (· ≠ '\'')
  let body := (text.toList.drop (encoding.length + 1)).dropLast
  match codes? body with
  | none => .error (.invalidEscape text)
  | some codes =>
    if !encoding.isEmpty then .ok (.wrap (codes.headD 0) false)
    else
      match codes with
      | [code] => .ok ⟨(code : Int).bmod 256, false⟩
      | codes => .ok ⟨packed codes, false⟩

end Constant

end CPreprocessor
