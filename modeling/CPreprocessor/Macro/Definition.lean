import CPreprocessor.Report
import CPreprocessor.Token

/-!
Macro definitions. A definition is read from the tokens after `#define` by `Definition.parse`, which
also checks the rules for `#` and `##` in the replacement list.
-/

namespace CPreprocessor

/-- The name by which a replacement list refers to the arguments that `...` collects. -/
def variadicName : String := "__VA_ARGS__"

/-- Whether a macro takes arguments. A variadic macro collects all arguments from its last parameter
on in that parameter. -/
inductive Shape
  | object
  | function (parameters : List String) (variadic : Bool)
deriving DecidableEq, Inhabited

/-- A macro: its name and what it stands for. Layout in the replacement list is single blanks
between other tokens. `version` counts the changes of a table up to this definition. -/
structure Definition where
  name : String
  shape : Shape := .object
  replacement : List Token := []
  version : Nat := 0
  location : Option Location := none
  builtin : Bool := false
deriving DecidableEq, Inhabited

namespace Definition

def isFunction (d : Definition) : Bool :=
  match d.shape with
  | .object => false
  | .function .. => true

def parameters (d : Definition) : List String :=
  match d.shape with
  | .object => []
  | .function parameters _ => parameters

def isVariadic (d : Definition) : Bool :=
  match d.shape with
  | .object => false
  | .function _ variadic => variadic

/-- The replacement list as text. -/
def body (d : Definition) : String := String.join (d.replacement.map Token.text)

/-- Whether a redefinition of one by the other changes nothing. -/
def sameAs (d e : Definition) : Bool :=
  d.shape = e.shape &&
    d.replacement.map (fun t => (t.kind, t.text)) = e.replacement.map fun t => (t.kind, t.text)

/-- How a parameter list is written: the collecting parameter is `...` or has `...` after it. -/
def renderParameters : List String → Bool → List String
  | parameters, false => parameters
  | parameters, true =>
    let last := parameters.getLastD variadicName
    parameters.dropLast ++ [if last = variadicName then "..." else last ++ "..."]

/-- The definition without its directive: what `parse` reads back. -/
def renderTail (d : Definition) : String :=
  let head :=
    match d.shape with
    | .object => d.name
    | .function parameters variadic =>
      d.name ++ "(" ++ ", ".intercalate (renderParameters parameters variadic) ++ ")"
  if d.body.isEmpty then head else head ++ " " ++ d.body

/-- The definition as a directive. -/
def render (d : Definition) : String := "#define " ++ d.renderTail

end Definition

/-- Why tokens define no macro. -/
inductive DefinitionFault
  | missingName
  | nameNotIdentifier
  /-- the macro is called `defined` -/
  | reservedName
  /-- the parameter list has no `)` -/
  | openParameters
  /-- a parameter is called `__VA_ARGS__` -/
  | reservedParameter
  | duplicateParameter (name : String)
  | expectedParameter (found : String)
  /-- after the collecting parameter only `)` may follow, after another one also a comma -/
  | expectedSeparator (variadic : Bool) (found : String)
  /-- `##` at an end of the replacement list -/
  | pasteAtEnd
  /-- `#` in front of something that is no parameter -/
  | stringizeNonParameter
deriving DecidableEq, Inhabited

namespace DefinitionFault

def message : DefinitionFault → String
  | missingName => "no macro name given in #define directive"
  | nameNotIdentifier => "macro names must be identifiers"
  | reservedName => "'defined' cannot be used as a macro name"
  | openParameters => "missing ')' in macro parameter list"
  | reservedParameter => "__VA_ARGS__ can not be used as a parameter name"
  | duplicateParameter name => "duplicate macro parameter '" ++ name ++ "'"
  | expectedParameter found => "expected parameter name, found '" ++ found ++ "'"
  | expectedSeparator variadic found =>
    "expected " ++ (if variadic then "')'" else "',' or ')'") ++
      " in macro parameter list, found '" ++ found ++ "'"
  | pasteAtEnd => "'##' cannot appear at either end of a macro expansion"
  | stringizeNonParameter => "'#' is not followed by a macro parameter"

/-- The report of a fault at a place. -/
def report (f : Located DefinitionFault) : Report where
  category := .definition
  message := f.cause.message
  location := f.location

end DefinitionFault

namespace Definition

/-- A parameter with its first token: its name, whether it collects, and the tokens after it. -/
def parameter (seen : List String) (t : Token) (rest : List Token) :
    Except (Located DefinitionFault) (String × Bool × List Token) :=
  if t.isPunctuator "..." then .ok (variadicName, true, rest)
  else if t.isIdentifier then
    if t.text = variadicName then .error ⟨.reservedParameter, t.location⟩
    else if seen.contains t.text then .error ⟨.duplicateParameter t.text, t.location⟩
    else
      match skipLayout rest with
      | [] => .ok (t.text, false, [])
      | dots :: after =>
        if dots.isPunctuator "..." then .ok (t.text, true, after)
        else .ok (t.text, false, dots :: after)
  else .error ⟨.expectedParameter t.text, t.location⟩

theorem length_le_of_parameter {seen : List String} {t : Token} {rest after : List Token}
    {name : String} {variadic : Bool}
    (h : parameter seen t rest = .ok (name, variadic, after)) : after.length ≤ rest.length := by
  have hle := length_skipLayout_le rest
  unfold parameter at h
  split at h
  · simp_all
  · split at h
    · split at h
      · simp at h
      · split at h
        · simp at h
        · split at h
          · simp at h; simp [h]
          · rename_i dots after' hskip
            rw [hskip] at hle
            simp only [List.length_cons] at hle
            split at h <;> simp at h <;> obtain ⟨_, _, rfl⟩ := h
            · omega
            · simpa using hle
    · simp at h

/-- A parameter list from a parameter on, up to its `)`: the parameters, those in `seen` first,
whether the last one collects, and the tokens after the list. `last` is where the tokens end. -/
def parameterList (last : Location) (seen : List String) (tokens : List Token) :
    Except (Located DefinitionFault) (List String × Bool × List Token) :=
  match _hskip : skipLayout tokens with
  | [] => .error ⟨.openParameters, last⟩
  | t :: rest =>
    match _hparameter : parameter seen t rest with
    | .error fault => .error fault
    | .ok (name, variadic, after) =>
      match _hafter : skipLayout after with
      | [] => .error ⟨.openParameters, last⟩
      | separator :: tail =>
        if separator.isPunctuator ")" then .ok (seen ++ [name], variadic, tail)
        else if separator.isPunctuator "," && !variadic then
          parameterList last (seen ++ [name]) tail
        else .error ⟨.expectedSeparator variadic separator.text, separator.location⟩
termination_by tokens.length
decreasing_by
  have h₁ := length_skipLayout_le tokens
  have h₂ := length_le_of_parameter _hparameter
  have h₃ := length_skipLayout_le after
  rw [_hskip] at h₁
  rw [_hafter] at h₃
  simp only [List.length_cons] at h₁ h₃
  omega

/-- The parameter list after a `(`, which may be empty. -/
def parameterClause (last : Location) (tokens : List Token) :
    Except (Located DefinitionFault) (List String × Bool × List Token) :=
  match skipLayout tokens with
  | [] => .error ⟨.openParameters, last⟩
  | t :: rest =>
    if t.isPunctuator ")" then .ok ([], false, rest) else parameterList last [] (t :: rest)

/-- Tokens with each run of layout made one blank at its first place, and none at the end. `gap` is
where the current run began. -/
def normalise (gap : Option Location) : List Token → List Token
  | [] => []
  | t :: ts =>
    if t.isLayout then normalise (gap <|> some t.location) ts
    else (gap.map Token.blank).toList ++ t :: normalise none ts

/-- The first `#` in a replacement list that has no parameter after it. -/
def strayStringize? (parameters : List String) : List Token → Option Token
  | [] => none
  | t :: ts =>
    if t.isPunctuator "#" && !(ts.head?.any fun u => u.isIdentifier && parameters.contains u.text)
    then some t else strayStringize? parameters ts

/-- The fault of a replacement list, if it has one. -/
def operatorFault? (shape : Shape) (replacement : List Token) : Option (Located DefinitionFault) :=
  let tokens := significant replacement
  match (tokens.head?.toList ++ tokens.getLast?.toList).find? (·.isPunctuator "##") with
  | some edge => some ⟨.pasteAtEnd, edge.location⟩
  | none =>
    match shape with
    | .object => none
    | .function parameters _ =>
      (strayStringize? parameters tokens).map fun t => ⟨.stringizeNonParameter, t.location⟩

/-- The shape of a macro whose name is followed by `tokens`, and its replacement list as written. A
`(` begins a parameter list only right after the name. -/
def shapeOf (last : Location) :
    List Token → Except (Located DefinitionFault) (Shape × List Token)
  | [] => .ok (.object, [])
  | t :: rest =>
    if t.isPunctuator "(" then
      match parameterClause last rest with
      | .error fault => .error fault
      | .ok (parameters, variadic, after) => .ok (.function parameters variadic, after)
    else .ok (.object, t :: rest)

/-- The definition written by the tokens after `#define`. `location` is where a missing name is
reported. -/
def parse (tokens : List Token) (location : Option Location) (builtin : Bool) :
    Except (Located DefinitionFault) Definition :=
  match skipLayout tokens with
  | [] => .error ⟨.missingName, location⟩
  | name :: rest =>
    if !name.isIdentifier then .error ⟨.nameNotIdentifier, name.location⟩
    else if name.text = "defined" then .error ⟨.reservedName, name.location⟩
    else
      match shapeOf (tokens.getLastD name).location rest with
      | .error fault => .error fault
      | .ok (shape, after) =>
        let replacement := normalise none (skipLayout after)
        match operatorFault? shape replacement with
        | some fault => .error fault
        | none => .ok { name := name.text, shape, replacement, location := name.location, builtin }

end Definition

end CPreprocessor
