import CPreprocessor.Directive.Conditional
import CPreprocessor.Location
import CPreprocessor.Source
import CPreprocessor.Text.Character

/-!
Logical lines, and what a line that begins with `#` directs. The text of an `#error` or `#warning`
need not be made of tokens, so such lines are told by their text as well.
-/

namespace CPreprocessor

/-- What the name of a directive calls for. -/
inductive Keyword
  | conditional (c : Conditional)
  | define
  | undefine
  | error
  | warning
  | include
  /-- accepted without any effect -/
  | ignored
deriving DecidableEq, Inhabited

namespace Keyword

def table : List (String × Keyword) :=
  [("if", .conditional (.opening .ifTrue)), ("ifdef", .conditional (.opening .ifDefined)),
   ("ifndef", .conditional (.opening .ifUndefined)), ("elif", .conditional .elseIf),
   ("else", .conditional .otherwise), ("endif", .conditional .closing),
   ("define", .define), ("undef", .undefine), ("error", .error), ("warning", .warning),
   ("include", .include), ("pragma", .ignored), ("line", .ignored), ("ident", .ignored),
   ("sccs", .ignored)]

def ofText? (text : String) : Option Keyword := table.lookup text

end Keyword

/-- What a logical line is. -/
inductive LineForm
  /-- text to expand -/
  | text
  /-- a `#` alone, or one before a number -/
  | nothing
  /-- a `#` before something that is no name -/
  | invalid (mark name : Token)
  /-- a `#`, the name of a directive, and the rest of the line -/
  | directive (mark name : Token) (rest : List Token)
deriving DecidableEq, Inhabited

/-- The form of a line. The line end is no part of the rest. -/
def LineForm.of (line : List Token) : LineForm :=
  match line.dropWhile fun t => t.kind = .whitespace || t.kind = .comment with
  | [] => .text
  | mark :: afterMark =>
    if mark.isPunctuator "#" then
      match skipLayout afterMark with
      | [] => .nothing
      | name :: rest =>
        if name.isIdentifier then .directive mark name (rest.filter fun t => t.kind ≠ .newline)
        else if name.kind = .number then .nothing
        else .invalid mark name
    else .text

/-- Cuts scanned tokens after each line end. `line` holds the tokens of the current line, last
first. -/
def linesFrom (line : List Scanned) : List Scanned → List (List Scanned)
  | [] => if line.isEmpty then [] else [line.reverse]
  | t :: ts =>
    if t.token.kind = .newline then (t :: line).reverse :: linesFrom [] ts
    else linesFrom (t :: line) ts

/-- The logical lines of a source, each with its line end. -/
def Source.logicalLines (s : Source) : List (List Scanned) := linesFrom [] s.scan

namespace MessageLine

/-- The text after a word at the start of `line`, if the word ends there. -/
def afterWord? (word line : List Char) : Option (List Char) :=
  if word.isPrefixOf line then
    let rest := line.drop word.length
    if rest.head?.any Text.isWordChar then none else some rest
  else none

/-- The message on a logical line that asks for an error or a warning, as written. -/
def message? (line : List Char) : Option (List Char) :=
  match line.dropWhile Text.isSpace with
  | '#' :: rest =>
    let body := rest.dropWhile Text.isSpace
    (afterWord? "error".toList body).or (afterWord? "warning".toList body)
  | _ => none

end MessageLine

end CPreprocessor
