import CPreprocessor.Directive.Line
import CPreprocessor.Directive.Run

/-!
# The meaning of properly nested lines

Properly nested lines form a tree of groups, and what they bring about is found by recursion over it.
-/

namespace CPreprocessor

/-! ## Groups

A `Block` is a sequence of logical lines in which every conditional directive is part of a group: an
opening directive, the branches that `#elif` and one last `#else` begin, and `#endif`. The lines of
text between two directives are kept together. `Opens` says which opening directives are accepted.
-/

/-- A line with the directive `c`. -/
structure ConditionalLine (c : Conditional) where
  tokens : List Token
  mark : Token
  name : Token
  rest : List Token
  form : LineForm.of tokens = .directive mark name rest
  keyword : Keyword.ofText? name.text = some (.conditional c)

/-- A line of text. -/
def TextLine : Type := { tokens : List Token // LineForm.of tokens = .text }

/-- Whether a line is no text and no conditional directive. -/
def LineForm.IsPlain : LineForm → Prop
  | text => False
  | nothing => True
  | invalid _ _ => True
  | directive _ name _ => ∀ c, Keyword.ofText? name.text ≠ some (.conditional c)

/-- A line with a directive that is not conditional, which may be empty or invalid. -/
def PlainLine : Type := { tokens : List Token // (LineForm.of tokens).IsPlain }

mutual

inductive Block (Opens : Opening → List Token → Prop) : Type
  | last (texts : List TextLine)
  | plain (texts : List TextLine) (line : PlainLine) (after : Block Opens)
  | group (texts : List TextLine) (opening : Opening) (line : ConditionalLine (.opening opening))
    (opens : Opens opening line.rest) (body : Block Opens) (branches : Branches Opens)
    (after : Block Opens)

/-- The branches of a group after its first one. -/
inductive Branches (Opens : Opening → List Token → Prop) : Type
  | closed (line : ConditionalLine .closing)
  | elseIf (line : ConditionalLine .elseIf) (body : Block Opens) (others : Branches Opens)
  | otherwise (line : ConditionalLine .otherwise) (body : Block Opens)
    (closing : ConditionalLine .closing)

end

variable {Opens : Opening → List Token → Prop}

def textTokens (texts : List TextLine) : List (List Token) := texts.map Subtype.val

mutual

def Block.lines : Block Opens → List (List Token)
  | .last texts => textTokens texts
  | .plain texts line after => textTokens texts ++ line.val :: after.lines
  | .group texts _ line _ body branches after =>
    textTokens texts ++ line.tokens :: (body.lines ++ (branches.lines ++ after.lines))

def Branches.lines : Branches Opens → List (List Token)
  | .closed line => [line.tokens]
  | .elseIf line body others => line.tokens :: (body.lines ++ others.lines)
  | .otherwise line body closing => line.tokens :: (body.lines ++ [closing.tokens])

end

/-! ## Meaning

What a block does by recursion over its groups: text is expanded with the macros as they are before
the next directive, definitions count in text that is processed, and of each group the first branch
whose condition holds is processed. An error that no handler takes is the outcome of the whole. No frames
are kept.
-/

/-- What lines bring about: the macros, the tokens put out and the verdicts on the directives. -/
structure Effect where
  table : Table
  output : List Token
  verdicts : List Verdict

namespace Effect

variable (u : SourceUnit)

/-- The tokens that text expands to. If the lines cannot be expanded together, those are left out
that cannot be expanded alone. -/
def expansion (table : Table) (lines : List (List Token)) : List Token :=
  match (u.expander table).expand lines.flatten with
  | .ok expansion => expansion.tokens
  | .error _ =>
    lines.flatMap fun line =>
      match (u.expander table).expand line with
      | .ok expansion => expansion.tokens
      | .error _ => []

/-- Text that is processed. -/
def text (lines : List (List Token)) (e : Effect) : Effect :=
  { e with
    output := e.output ++
      (expansion u e.table lines).map (Run.outputToken u.setup.keepComments) }

/-- The macros after `#define`. A faulty definition counts for nothing, nor does one of a builtin
macro. -/
def defined (table : Table) (rest : List Token) (mark : Location) : Table :=
  match Definition.parse rest mark false with
  | .error _ => table
  | .ok d => if (table.lookup d.name).any Definition.builtin then table else table.define d

/-- The macros after `#undef`. -/
def undefined (table : Table) (rest : List Token) : Table :=
  match significant rest with
  | [] => table
  | name :: _ => if name.isIdentifier then table.undefine name.text name.location else table

/-- A directive that is not conditional and is processed. -/
def plain (line : PlainLine) (e : Effect) : Effect :=
  match LineForm.of line.val with
  | .directive mark name rest =>
    match Keyword.ofText? name.text with
    | some .define => { e with table := defined e.table rest mark.location }
    | some .undefine => { e with table := undefined e.table rest }
    | _ => e
  | _ => e

/-- Whether a condition holds. A faulty one does not. -/
def holds (table : Table) (rest : List Token) (mark : Location) : Bool :=
  match (u.evaluate table rest mark).1 with
  | .ok value => value.truthy
  | .error _ => false

/-- Whether the first branch of a group is selected. -/
def opens (table : Table) (opening : Opening) (rest : List Token) (mark : Location) : Bool :=
  match opening with
  | .ifTrue => holds u table rest mark
  | .ifDefined => (significant rest).head?.any fun name => table.isDefined name.text
  | .ifUndefined => (significant rest).head?.any fun name => !table.isDefined name.text

/-- Decides a condition. A faulty one does not hold, but an error that is not of this library is raised. -/
def tests (table : Table) (rest : List Token) (mark : Location) : Except Report Bool :=
  match (u.evaluate table rest mark).1 with
  | .ok value => .ok value.truthy
  | .error report => if report.category.isOwn then .ok false else .error report

/-- Decides whether the first branch of a group is selected. -/
def selects (table : Table) (opening : Opening) (rest : List Token) (mark : Location) :
    Except Report Bool :=
  match opening with
  | .ifTrue => tests u table rest mark
  | _ => .ok (opens u table opening rest mark)

/-- What is decided where it counts, and nothing elsewhere. -/
def decided (counts : Bool) (decision : Except Report Bool) : Except Report (Option Bool) :=
  if counts then decision.map some else .ok none

def add (e : Effect) (v : Verdict) : Effect := { e with verdicts := e.verdicts ++ [v] }

/-- Adds the verdict on a directive. -/
def judge {c : Conditional} (line : ConditionalLine c) (taken : Option Bool) (e : Effect) :
    Effect :=
  e.add ⟨c, line.mark.location, taken, Run.conditionText line.rest⟩

end Effect

variable (u : SourceUnit)

mutual

/-- What a block brings about. If it is not `live`, nothing in it is evaluated. -/
def Block.process (live : Bool) : Block Opens → Effect → Except Report Effect
  | .last texts, e => .ok (if live then e.text u (textTokens texts) else e)
  | .plain texts line after, e =>
    after.process live (if live then (e.text u (textTokens texts)).plain line else e)
  | .group texts opening line _ body branches after, e => do
    let e := if live then e.text u (textTokens texts) else e
    let taken ← Effect.decided live (Effect.selects u e.table opening line.rest line.mark.location)
    let e ← body.process (taken = some true) (e.judge line taken)
    let e ← branches.process live (taken = some true) e
    after.process live e

/-- What the other branches of a group bring about, when `taken` says whether one was selected before.
The condition of an `#elif` is evaluated only if none was. -/
def Branches.process (live taken : Bool) : Branches Opens → Effect → Except Report Effect
  | .closed _, e => .ok e
  | .elseIf line body others, e => do
    let now ← Effect.decided (live && !taken) (Effect.tests u e.table line.rest line.mark.location)
    let e ← body.process (now = some true) (e.judge line now)
    others.process live (taken || now = some true) e
  | .otherwise line body _, e =>
    let now := if live then some (!taken) else none
    body.process (now = some true) (e.judge line now)

end

end CPreprocessor
