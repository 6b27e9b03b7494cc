import CPreprocessor.Text.Character

/-!
Texts that a user types or is shown: integers, quoted texts, and what a terminal takes for commands.
-/

namespace CPreprocessor.Text

/-! ## Integers

Integers as a user types them: white space around, one sign, decimal digits of any script, and
single underscores between digits.
-/

/-- Whether `c` may surround a numeral. The four ASCII separators do not count as blanks here. -/
def isNumeralSpace (c : Char) : Bool :=
  if c.toNat < 128 then c == ' ' || (9 ≤ c.toNat && c.toNat ≤ 13) else isSpace c

/-- Continues a numeral of value `n`, whose last character was a digit. -/
def moreDigits (n : Nat) : List Char → Option Nat
  | [] => some n
  | '_' :: c :: cs => (decimalValue? c).bind fun d => moreDigits (10 * n + d) cs
  | c :: cs => (decimalValue? c).bind fun d => moreDigits (10 * n + d) cs

/-- The value of an unsigned numeral. -/
def natural? : List Char → Option Nat
  | [] => none
  | c :: cs => (decimalValue? c).bind fun d => moreDigits d cs

/-- The value of a numeral with at most one sign. -/
def signed? : List Char → Option Int
  | '-' :: cs => (natural? cs).map fun n => -(n : Int)
  | '+' :: cs => (natural? cs).map fun n => (n : Int)
  | cs => (natural? cs).map fun n => (n : Int)

/-- The integer that `text` spells, if it spells one of no more digits than are converted. -/
def integer? (text : String) : Option Int :=
  let body := text.toList.dropWhile isNumeralSpace
  let numeral := (body.reverse.dropWhile isNumeralSpace).reverse
  if numeral.countP (fun c => (decimalValue? c).isSome) ≤ digitLimit then signed? numeral else none

/-! ## Quoted texts

A text between quotation marks for a log or a dump: apostrophes, or double quotes for a text that
holds an apostrophe and no double quote. What does not show as itself is written as an escape.
-/

/-- The digits of `n` in base sixteen, at least `width` of them. -/
def hexPadded (width n : Nat) : List Char :=
  let digits := Nat.toDigits 16 n
  List.replicate (width - digits.length) '0' ++ digits

/-- How `c` is written between two marks `mark`. -/
def quotedChar (mark c : Char) : List Char :=
  if c = mark || c = '\\' then ['\\', c]
  else if c = '\n' then ['\\', 'n']
  else if c = '\r' then ['\\', 'r']
  else if c = '\t' then ['\\', 't']
  else if isPrintable c then [c]
  else if c.toNat < 0x100 then '\\' :: 'x' :: hexPadded 2 c.toNat
  else if c.toNat < 0x10000 then '\\' :: 'u' :: hexPadded 4 c.toNat
  else '\\' :: 'U' :: hexPadded 8 c.toNat

/-- The quoted form of a text. -/
def quoted (text : String) : String :=
  let mark := if text.toList.contains '\'' && !text.toList.contains '"' then '"' else '\''
  String.ofList (mark :: text.toList.flatMap (quotedChar mark) ++ [mark])

/-! ## Control sequences

The escape character, `[`, parameters, and a letter at the end. A terminal obeys them; a text that goes
anywhere else is printed without them.
-/

/-- Characters between the `[` of a control sequence and the letter at its end. -/
def isControlParameter (c : Char) : Bool := c.isDigit || c == ';' || c == '?'

/-- What follows the control sequence at the start of a text, if it starts with one. -/
def afterControl? : List Char → Option (List Char)
  | '\x1b' :: '[' :: cs =>
    match cs.dropWhile isControlParameter with
    | [] => none
    | c :: rest => if c.isAlpha then some rest else none
  | _ => none

theorem length_of_afterControl? {text rest : List Char} (h : afterControl? text = some rest) :
    rest.length < text.length := by
  unfold afterControl? at h
  split at h
  · rename_i cs
    have hle := (List.dropWhile_sublist isControlParameter (l := cs)).length_le
    split at h
    · simp at h
    · rename_i c after hdrop
      rw [hdrop] at hle
      split at h
      · obtain rfl : after = rest := by simpa using h
        simp only [List.length_cons] at hle ⊢
        omega
      · simp at h
  · simp at h

/-- A text without its control sequences, which are cut out in one pass: one that only comes about
by a cut stays. -/
def withoutControls (text : List Char) : List Char :=
  match text with
  | [] => []
  | c :: cs =>
    match _hafter : afterControl? (c :: cs) with
    | some rest => withoutControls rest
    | none => c :: withoutControls cs
termination_by text.length
decreasing_by
  · exact length_of_afterControl? _hafter
  · simp

/-- A string without its control sequences. -/
def plain (text : String) : String := String.ofList (withoutControls text.toList)

end CPreprocessor.Text
