import CPreprocessor.Expansion.Fault
import CPreprocessor.Lexeme
import CPreprocessor.Location
import CPreprocessor.Macro.Definition

/-!
What takes the place of an invocation: its arguments are collected, its replacement list is read as a
template, and the template is filled.
-/

namespace CPreprocessor

/-! ## Argument lists

The argument list of an invocation. Arguments end at the commas and at the `)` outside of all inner
parentheses; the collecting parameter of a variadic macro takes in the commas that come after it.
-/

/-- Whether the next significant token opens an argument list. -/
def opensArguments (pending : List Token) : Bool :=
  (skipLayout pending).head?.any (·.isPunctuator "(")

/-- A line end within an argument list is a blank. -/
def Token.withoutNewline (t : Token) : Token :=
  if t.kind = .newline then { t with kind := .whitespace, text := " " } else t

/-- An argument list as found: the arguments as written, the `)`, and what follows it. -/
structure ArgumentList where
  arguments : List (List Token)
  closing : Token
  rest : List Token

namespace ArgumentList

/-- Reads an argument list after its `(`, `depth` parentheses further in. `named` is the number of
parameters; `done` holds the finished arguments and `current` the tokens of the one being read. -/
def read (named : Nat) (variadic : Bool) (depth : Nat) (done : List (List Token))
    (current : List Token) : List Token → Option ArgumentList
  | [] => none
  | t :: ts =>
    if t.isPunctuator "(" then read named variadic (depth + 1) done (current ++ [t]) ts
    else if t.isPunctuator ")" then
      if depth = 0 then some ⟨(done ++ [current]).map trimLayout, t, ts⟩
      else read named variadic (depth - 1) done (current ++ [t]) ts
    else if t.isPunctuator "," && depth = 0 && !(variadic && named ≤ done.length + 1) then
      read named variadic depth (done ++ [current]) [] ts
    else read named variadic depth done (current ++ [t.withoutNewline]) ts

/-- The arguments as the parameters of `d` take them: none for a macro without parameters that is
given nothing, and an empty one for a collecting parameter that is left out. -/
def supply (d : Definition) (arguments : List (List Token)) :
    Except ExpansionFault (List (List Token)) :=
  let expected := d.parameters.length
  if expected = 0 && arguments.length = 1 && arguments.all List.isEmpty then .ok []
  else if d.isVariadic && arguments.length + 1 = expected then .ok (arguments ++ [[]])
  else if arguments.length = expected then .ok arguments
  else
    .error (.argumentCount (if d.isVariadic then expected - 1 else expected) arguments.length
      d.isVariadic)

end ArgumentList

/-! ## Templates

Replacement lists as templates. A template says what each part of a replacement list contributes to
an expansion, with parameters given by their index, so that names of parameters no longer matter.
-/

/-- A part of a replacement list. -/
inductive Piece
  /-- a token as it stands -/
  | copy (t : Token)
  /-- `#` and a parameter -/
  | stringize (index : Nat)
  /-- a parameter beside `##`: its argument as written -/
  | operand (index : Nat)
  /-- any other parameter: its argument, expanded -/
  | argument (index : Nat)
  /-- `##` -/
  | join
  /-- `##` and the collecting parameter -/
  | joinRest (index : Nat)
deriving DecidableEq, Inhabited

namespace Definition

def indexOf? (d : Definition) (name : String) : Option Nat := d.parameters.idxOf? name

/-- The pieces of the tokens of a replacement list. `joined` says whether they come right after a
`##`. -/
def pieces (d : Definition) (joined : Bool) (tokens : List Token) : List Piece :=
  match tokens with
  | [] => []
  | t :: rest =>
    if d.isFunction && t.isPunctuator "#" then
      match _hskip : skipLayout rest with
      | [] => .copy t :: d.pieces false rest
      | p :: after =>
        match d.indexOf? p.text with
        | some index => .stringize index :: d.pieces false after
        | none => .copy t :: d.pieces false rest
    else if t.isPunctuator "##" then
      match _hskip : skipLayout rest with
      | [] => [.join]
      | p :: after =>
        if d.isVariadic && d.parameters.getLast? = some p.text then
          .joinRest (d.parameters.length - 1) :: d.pieces false after
        else .join :: d.pieces true (p :: after)
    else
      match (if d.isFunction && t.isIdentifier then d.indexOf? t.text else none) with
      | some index =>
        if joined || (skipLayout rest).head?.any (·.isPunctuator "##") then
          .operand index :: d.pieces false rest
        else .argument index :: d.pieces false rest
      | none => .copy t :: d.pieces false rest
termination_by tokens.length
decreasing_by
  all_goals
    have hle := length_skipLayout_le rest
    try rw [_hskip] at hle
    simp only [List.length_cons] at hle ⊢
    omega

def template (d : Definition) : List Piece := d.pieces false d.replacement

end Definition

/-- The parameters that a template needs expanded, in the order of their first use. -/
def Piece.expandedIndices (template : List Piece) : List Nat :=
  (template.filterMap fun
    | .argument index => some index
    | _ => none).eraseDups

/-! ## Operators

The operators `#` and `##`: an argument spelled as a string literal, and two tokens joined to one.
-/

/-- Text for the inside of a string literal, with a backslash before each backslash and each double
quote. -/
def escapeQuotes (text : List Char) : List Char :=
  text.flatMap fun c => if c = '\\' || c = '"' then ['\\', c] else [c]

namespace Token

/-- How a token is spelled within a string literal. Escapes are needed only in literals. -/
def spelling (t : Token) : List Char :=
  if t.kind = .string || t.kind = .character then escapeQuotes t.text.toList else t.text.toList

/-- The spellings of tokens, with one blank for each run of layout between two of them. `started`
says whether a token came before, and `gap` whether layout did. -/
def spellings (started gap : Bool) : List Token → List Char
  | [] => []
  | t :: ts =>
    if t.isLayout then spellings started started ts
    else (if gap then [' '] else []) ++ t.spelling ++ spellings true false ts

/-- The string literal that spells an argument. -/
def stringize (argument : List Token) (site : Location) : Token where
  kind := .string
  text := String.ofList ('"' :: spellings false false argument ++ ['"'])
  location := site

/-- What an empty operand of `##` leaves. -/
def placemarker (site : Location) : Token := { kind := .placemarker, text := "", location := site }

/-- The token that two operands of `##` join to: the other one if one is empty, else the single
token that their joined spelling reads as, if it does. -/
def paste? (left right : Token) (site : Location) : Option Token :=
  if left.kind = .placemarker then some right
  else if right.kind = .placemarker then some left
  else
    match lexemes (despliced (left.text.toList ++ right.text.toList)) with
    | [.token kind _] =>
      if kind.isLayout then none
      else some { kind, text := left.text ++ right.text, location := site }
    | _ => none

/-- Two operands join to the other one where one is empty, and else to what is read where they meet. -/
theorem cases_of_paste? {left right joined : Token} {site : Location}
    (h : left.paste? right site = some joined) :
    joined = right ∨ joined = left ∨
      (left.kind ≠ .placemarker ∧ right.kind ≠ .placemarker ∧
        ∃ kind text, lexemes (despliced (left.text.toList ++ right.text.toList)) = [.token kind text] ∧
          kind.isLayout = false ∧
          joined = { kind, text := left.text ++ right.text, location := site }) := by
  unfold paste? at h
  split at h
  · exact .inl (Option.some.inj h).symm
  rename_i hleft
  split at h
  · exact .inr (.inl (Option.some.inj h).symm)
  rename_i hright
  split at h
  · rename_i kind text hread
    split at h
    · cases h
    · rename_i hlayout
      exact .inr (.inr ⟨hleft, hright, kind, text, hread, Bool.eq_false_iff.mpr hlayout,
        (Option.some.inj h).symm⟩)
  · cases h

end Token

/-! ## Substitution

Filling a template. The pieces are laid out first, noting before which items a `##` stands; then the
items beside each `##` are joined from left to right.
-/

/-- What has been laid out: the items, last first, and the positions before which a `##` stands. A
position counts the items before it, and stays noted when these are removed again. -/
structure Draft where
  items : List Token := []
  joins : List Nat := []
deriving DecidableEq, Inhabited

namespace Draft

/-- Adds items at the end. -/
def append (d : Draft) (tokens : List Token) : Draft :=
  { d with items := tokens.reverse ++ d.items }

/-- Removes the blanks at the end. -/
def dropBlanks (d : Draft) : Draft :=
  { d with items := d.items.dropWhile fun t => t.kind = .whitespace }

/-- Notes a `##` at the end. -/
def join (d : Draft) : Draft :=
  let d := d.dropBlanks
  { d with joins := d.items.length :: d.joins }

end Draft

/-- What an invocation puts in the place of parameters: each argument as written and expanded, and
the place of the invocation. -/
structure Filling where
  written : Nat → List Token
  expanded : Nat → List Token
  site : Location

namespace Filling

/-- An argument as an operand of `##`. -/
def operand (f : Filling) (index : Nat) : List Token :=
  if (f.written index).isEmpty then [.placemarker f.site] else f.written index

/-- Lays out one piece. A `##` between a comma and the collecting parameter joins nothing: it takes
the comma away if the argument is empty. -/
def lay (f : Filling) (d : Draft) : Piece → Draft
  | .copy t => d.append [t.moveTo f.site]
  | .stringize index => d.append [.stringize (f.written index) f.site]
  | .operand index => d.append (f.operand index)
  | .argument index => d.append (f.expanded index)
  | .join => d.join
  | .joinRest index =>
    match d.dropBlanks.items with
    | [] => d.join.append (f.operand index)
    | t :: before =>
      if t.isPunctuator "," then
        if (f.written index).isEmpty then { d with items := before }
        else d.dropBlanks.append (f.written index)
      else d.join.append (f.operand index)

/-- Joins items from position `position` on to the finished ones in `done`, last first. -/
def joinItems (joins : List Nat) (site : Location) (position : Nat) (done : List Token) :
    List Token → Except ExpansionFault (List Token)
  | [] => .ok done.reverse
  | t :: ts =>
    match done with
    | [] => joinItems joins site (position + 1) [t] ts
    | left :: before =>
      if joins.contains position then
        match left.paste? t site with
        | some joined => joinItems joins site (position + 1) (joined :: before) ts
        | none => .error (.paste left.text t.text)
      else joinItems joins site (position + 1) (t :: left :: before) ts

/-- The tokens that a template stands for. -/
def fill (f : Filling) (template : List Piece) : Except ExpansionFault (List Token) :=
  let draft := template.foldl f.lay {}
  joinItems draft.joins f.site 0 [] draft.items.reverse

end Filling

end CPreprocessor
