import CPreprocessor.Macro.Definition
import CPreprocessor.Source

/-!
The table of macros, with the history of its changes. The number of changes is the version of the
table, and each definition carries the version it made. Every program finds some macros defined.
-/

namespace CPreprocessor

/-- What a change does to a name. -/
inductive Action
  | define
  | undefine
deriving DecidableEq, Inhabited

/-- One change of a table. -/
structure Event where
  action : Action
  name : String
  version : Nat
  location : Option Location
deriving DecidableEq, Inhabited

/-- A definition that took the place of a different one. -/
structure Conflict where
  previous : Definition
  current : Definition
deriving DecidableEq, Inhabited

namespace Conflict

def message (c : Conflict) : String := "'" ++ c.current.name ++ "' redefined"

def hint? (c : Conflict) : Option String :=
  c.previous.location.map fun l => "previous definition is at " ++ l.render

end Conflict

/-- The macros that are defined, in the order in which their names came in, and every change so far,
oldest first. A name that is defined again keeps its position. -/
structure Table where
  definitions : List Definition := []
  history : List Event := []
  nodup : (definitions.map Definition.name).Nodup := by exact List.nodup_nil

namespace Table

instance : EmptyCollection Table := ⟨{}⟩

instance : Inhabited Table := ⟨∅⟩

/-- The number of changes so far. -/
def version (t : Table) : Nat := t.history.length

def lookup (t : Table) (name : String) : Option Definition :=
  t.definitions.find? (·.name = name)

def isDefined (t : Table) (name : String) : Bool := (t.lookup name).isSome

/-- The names in the order in which they came in. -/
def names (t : Table) : List String := t.definitions.map Definition.name

/-- The list with `d` in the place of the definition of its name, or at the end. -/
def put (d : Definition) : List Definition → List Definition
  | [] => [d]
  | e :: es => if e.name = d.name then d :: es else e :: put d es

theorem names_put (d : Definition) (l : List Definition) :
    (put d l).map Definition.name =
      if d.name ∈ l.map Definition.name then l.map Definition.name
      else l.map Definition.name ++ [d.name] := by
  induction l with
  | nil => simp [put]
  | cons e es ih =>
    by_cases h : e.name = d.name
    · simp [put, h]
    · have h' : ¬ d.name = e.name := fun h'' => h h''.symm
      by_cases hm : d.name ∈ es.map Definition.name <;> simp_all [put]

theorem nodup_put {d : Definition} {l : List Definition}
    (h : (l.map Definition.name).Nodup) : ((put d l).map Definition.name).Nodup := by
  rw [names_put]
  split
  · exact h
  · rename_i hm
    rw [List.nodup_append]
    refine ⟨h, by simp, fun a ha b hb hab => hm ?_⟩
    rw [List.mem_singleton] at hb
    rwa [← hb, ← hab]

/-- Adds a definition, or puts it in the place of the one its name has. -/
def define (t : Table) (d : Definition) : Table :=
  { definitions := put { d with version := t.version + 1 } t.definitions
    history := t.history ++ [⟨.define, d.name, t.version + 1, d.location⟩]
    nodup := nodup_put t.nodup }

theorem find?_put (d : Definition) (l : List Definition) (name : String) :
    (put d l).find? (·.name = name) =
      if name = d.name then some d else l.find? (·.name = name) := by
  induction l with
  | nil => by_cases h : name = d.name <;> simp_all [put, eq_comm]
  | cons e es ih =>
    by_cases he : e.name = d.name
    · by_cases h : name = d.name
      · simp [put, he, h]
      · have h' : ¬ d.name = name := fun h'' => h h''.symm
        simp [put, he, h, h']
    · by_cases hn : e.name = name
      · have h : ¬ name = d.name := fun h => he (hn.trans h)
        simp [put, hn, h]
      · simp [put, he, hn, ih]

theorem lookup_define (t : Table) (d : Definition) (name : String) :
    (t.define d).lookup name =
      if name = d.name then some { d with version := t.version + 1 } else t.lookup name :=
  find?_put { d with version := t.version + 1 } t.definitions name

theorem version_define (t : Table) (d : Definition) : (t.define d).version = t.version + 1 := by
  simp [define, version]

/-- What `define` replaces by something different. -/
def conflict? (t : Table) (d : Definition) : Option Conflict :=
  match t.lookup d.name with
  | none => none
  | some previous =>
    if previous.sameAs d then none else some ⟨previous, { d with version := t.version + 1 }⟩

/-- Removes the definition of a name. A name without a definition changes nothing. -/
def undefine (t : Table) (name : String) (location : Option Location) : Table :=
  if t.isDefined name then
    { definitions := t.definitions.filter (·.name ≠ name)
      history := t.history ++ [⟨.undefine, name, t.version + 1, location⟩]
      nodup := (List.filter_sublist.map _).nodup t.nodup }
  else t

theorem lookup_undefine (t : Table) (name other : String) (location : Option Location) :
    (t.undefine name location).lookup other = if other = name then none else t.lookup other := by
  unfold undefine
  split
  · simp only [lookup, List.find?_filter]
    by_cases h : other = name
    · subst h
      simp
    · have kept : (fun d : Definition => !decide (d.name = name) && decide (d.name = other)) =
          fun d => decide (d.name = other) := by
        funext d
        by_cases hd : d.name = other <;> simp [hd, h]
      simp [h, kept]
  · rename_i hname
    by_cases h : other = name
    · subst h
      simpa [isDefined] using hname
    · simp [h]

/-- The names in the order of their code points. -/
def sortedNames (t : Table) : List String := t.names.mergeSort fun a b => decide (a ≤ b)

/-- The definitions that are not built in, in the order in which they were made. -/
def userDefined (t : Table) : List Definition :=
  (t.definitions.filter (!·.builtin)).mergeSort fun d e => decide (d.version ≤ e.version)

end Table

/-- The definition written by a text that could follow `#define`. -/
def Source.definition (s : Source) (builtin : Bool) : Except Report Definition :=
  match s.tokens with
  | .error report => .error report
  | .ok tokens => (Definition.parse tokens none builtin).mapError DefinitionFault.report

namespace Table

/-- Defines the macro that a text describes. -/
def defineSource (t : Table) (s : Source) : Except Report Table :=
  (s.definition false).map t.define

end Table

/-! ## Built-in macros

The macros that every program finds defined. The values of `__FILE__` and `__LINE__` depend on where
they are used, so their definitions hold none.
-/

namespace Builtin

/-- Where the built-in definitions are said to stand. -/
def file : String := "<built-in>"

/-- A macro that stands for a number. -/
def constant (name value : String) : Definition where
  name := name
  replacement := [{ kind := .number, text := value, location := ⟨file, 1, name.length + 2⟩ }]
  location := some ⟨file, 1, 1⟩
  builtin := true

/-- A macro whose value is found where it is used. -/
def dynamic (name : String) : Definition := { name, builtin := true }

/-- The names whose value is found where they are used. -/
def dynamicNames : List String := ["__FILE__", "__LINE__"]

/-- The operator that takes a pragma and leaves nothing. -/
def pragmaOperator : Definition where
  name := "_Pragma"
  shape := .function ["x"] false
  location := some ⟨file, 1, 1⟩
  builtin := true

def all : List Definition :=
  [constant "__STDC__" "1", constant "__STDC_VERSION__" "201112L",
   constant "__STDC_HOSTED__" "1"] ++ dynamicNames.map dynamic ++ [pragmaOperator]

end Builtin

/-- The table with the built-in macros added. -/
def Table.withBuiltins (t : Table) : Table := Builtin.all.foldl Table.define t

end CPreprocessor
