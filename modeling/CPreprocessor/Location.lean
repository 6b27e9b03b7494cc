/-!
Places in named sources, and the lines that they are in: how a text is cut into lines, which line ends
are deleted, and which lines diagnostics quote.
-/

namespace CPreprocessor

/-! ## Locations -/

/-- A file, a line and a column. Lines and columns of a source count from 1; a caller may name any.
-/
structure Location where
  file : String
  line : Int
  column : Int
deriving DecidableEq, Inhabited

namespace Location

/-- The written form `file:line:column`. -/
def render (l : Location) : String :=
  l.file ++ ":" ++ toString l.line ++ ":" ++ toString l.column

end Location

/-- Something and the place it was found at, where one is known. -/
structure Located (α : Type) where
  cause : α
  location : Option Location
deriving DecidableEq, Inhabited

end CPreprocessor

/-! ## Lines

Two ways to cut a text into lines. `newlineLines` knows one line end, the newline character; it is
the one by which positions in a source are counted. `boundaryLines` knows every line boundary, from
the carriage return to the paragraph separator; it is the one by which diagnostics quote a line.
-/

namespace CPreprocessor.Text

/-- The pieces of a text between its newlines: one more than there are newlines. -/
def newlineLines : List Char → List (List Char)
  | [] => [[]]
  | c :: cs =>
    if c = '\n' then [] :: newlineLines cs
    else
      match newlineLines cs with
      | [] => [[c]]
      | line :: lines => (c :: line) :: lines

/-- Whether a line ends at `c`. -/
def isLineBoundary (c : Char) : Bool :=
  c == '\n' || c == '\r' || c == '\x0b' || c == '\x0c' || c == '\x1c' || c == '\x1d' ||
    c == '\x1e' || c == '\u0085' || c == '\u2028' || c == '\u2029'

/-- The lines of a text, each without its boundary; a carriage return and a newline together are one
boundary. `line` holds the current line, last character first. Nothing after the last boundary is
no line. -/
def boundaryLinesFrom (line : List Char) : List Char → List (List Char)
  | [] => if line.isEmpty then [] else [line.reverse]
  | '\r' :: '\n' :: cs => line.reverse :: boundaryLinesFrom [] cs
  | c :: cs =>
    if isLineBoundary c then line.reverse :: boundaryLinesFrom [] cs
    else boundaryLinesFrom (c :: line) cs

/-- The lines of a text by every line boundary. -/
def boundaryLines (text : List Char) : List (List Char) := boundaryLinesFrom [] text

/-- A text whose line ends are all newlines: a carriage return, with the newline after it if there
is one, becomes a newline. -/
def unifyNewlines : List Char → List Char
  | [] => []
  | '\r' :: '\n' :: cs => '\n' :: unifyNewlines cs
  | c :: cs => (if c = '\r' then '\n' else c) :: unifyNewlines cs

end CPreprocessor.Text

/-! ## Splices

Line splices. A backslash right before a line end is deleted with that line end before anything else
is read, in one pass from left to right, so a backslash that only comes to stand before a line end
by a deletion stays. Every other character keeps the place it has in the source as written.
-/

namespace CPreprocessor

/-- A line and a column of a source. -/
structure Place where
  line : Int
  column : Int
deriving DecidableEq, Inhabited

namespace Place

/-- The first column of the following line. -/
def nextLine (p : Place) : Place := ⟨p.line + 1, 1⟩

/-- The place after a character at `p`. -/
def after (p : Place) (c : Char) : Place :=
  if c = '\n' then p.nextLine else ⟨p.line, p.column + 1⟩

end Place

/-- A text without its line splices. -/
def despliced : List Char → List Char
  | [] => []
  | '\\' :: '\n' :: cs => despliced cs
  | '\\' :: '\r' :: '\n' :: cs => despliced cs
  | c :: cs => c :: despliced cs

/-- The places of the characters that `despliced` keeps, for a text that begins at `p`, followed by
the place of its end. -/
def places (p : Place) : List Char → List Place
  | [] => [p]
  | '\\' :: '\n' :: cs => places p.nextLine cs
  | '\\' :: '\r' :: '\n' :: cs => places p.nextLine cs
  | c :: cs => p :: places (p.after c) cs

theorem length_places (p : Place) (text : List Char) :
    (places p text).length = (despliced text).length + 1 := by
  fun_induction despliced text generalizing p <;> simp_all [places]

/-! ## Listings

The lines of a source as diagnostics quote them. A logical line is a line with those that it is
spliced to, by backslashes at their ends.
-/

/-- The lines of a source, by every line boundary. -/
structure Listing where
  lines : List (List Char) := []
deriving DecidableEq, Inhabited

namespace Listing

def ofText (text : String) : Listing := ⟨Text.boundaryLines text.toList⟩

/-- Line number `number`, counted from 1. -/
def line? (l : Listing) (number : Int) : Option (List Char) :=
  if 1 ≤ number then l.lines[(number - 1).toNat]? else none

/-- The line that is quoted at a place. -/
def quote? (l : Listing) (location : Location) : Option String :=
  (l.line? location.line).map String.ofList

/-- Whether a line goes on in the next one. -/
def continues (line : List Char) : Bool := line.getLast? = some '\\'

/-- The first of `lines` with those that it goes on in, joined without their backslashes. -/
def joined : List (List Char) → List Char
  | [] => []
  | line :: lines => if continues line then line.dropLast ++ joined lines else line

/-- The logical line that line number `number` is part of. -/
def logicalLine (l : Listing) (number : Int) : List Char :=
  match l.line? number with
  | none => []
  | some _ =>
    let index := (number - 1).toNat
    let above := (l.lines.take index).reverse.takeWhile continues
    joined (l.lines.drop (index - above.length))

end Listing

end CPreprocessor
