import CPreprocessor.Macro.Table
import CPreprocessor.Text.Console

/-!
The options of a run, from defaults, requests to define a macro, and environment variables.
-/

namespace CPreprocessor

/-- What a run is told beside its source. A predefined macro without a value stands for 1. -/
structure Options where
  predefined : List (String × Option String) := []
  /-- names removed again before the run begins -/
  undefined : List String := []
  includeBuiltins : Bool := true
  maxDepth : Int := 200
  maxErrors : Int := 100
  keepComments : Bool := false
  /-- whether undefined names in conditions are warned of -/
  warnUndefined : Bool := false
  /-- names that are never expanded -/
  frozen : List String := []
deriving DecidableEq, Inhabited

/-- A request to define a macro that names none. -/
structure NamelessMacro where
  text : String
deriving DecidableEq, Inhabited

namespace NamelessMacro

def message (e : NamelessMacro) : String := "invalid macro definition '" ++ e.text ++ "'"

end NamelessMacro

namespace Options

/-- Predefined macros with one set; a name that was set before keeps its position. -/
def set (name : String) (value : Option String) :
    List (String × Option String) → List (String × Option String)
  | [] => [(name, value)]
  | (n, v) :: rest => if n = name then (n, value) :: rest else (n, v) :: set name value rest

def predefine (o : Options) (name : String) (value : Option String) : Options :=
  { o with predefined := set name value o.predefined }

/-- Predefines the macro that `text` asks for: `NAME`, `NAME=VALUE` or `F(x)=VALUE`. -/
def define (o : Options) (text : String) : Except NamelessMacro Options :=
  let before := text.toList.takeWhile (· ≠ '=')
  let after := text.toList.dropWhile (· ≠ '=')
  let name := Text.strip before
  if name.isEmpty then .error ⟨text⟩
  else
    .ok (o.predefine (String.ofList name)
      (if after.isEmpty then none else some (String.ofList after.tail)))

/-- The predefined macros as texts that could follow `#define`. -/
def predefineLines (o : Options) : List String :=
  o.predefined.map fun (name, value) => name ++ " " ++ value.getD "1"

/-- The names that are never expanded, each once, in the order of their code points. -/
def sortedFrozen (o : Options) : List String :=
  o.frozen.eraseDups.mergeSort fun a b => decide (a ≤ b)

/-- The macros at the start of a run: the built-in ones, then those asked for, without those
removed. -/
def startTable (o : Options) : Except Report Table :=
  let start := if o.includeBuiltins then Table.withBuiltins ∅ else ∅
  let define (t : Table) (text : String) : Except Report Table :=
    t.defineSource { text, file := "<command line>" }
  (o.predefineLines.foldlM define start).map fun t =>
    o.undefined.foldl (fun t name => t.undefine name none) t

/-! ## Environment variables -/

/-- Options that were read, and what there is to say about variables that could not be. -/
structure Read where
  options : Options
  warnings : List String := []
deriving DecidableEq, Inhabited

/-- The value of a variable that is set and not empty. -/
def valueOf? (environment : List (String × String)) (name : String) : Option String :=
  (environment.lookup name).filter fun value => !value.isEmpty

/-- The parts of a list in a variable, without those that are blank. -/
def parts (text : String) : List String :=
  (text.splitOn ",").filter fun part => !(Text.strip part.toList).isEmpty

/-- The words that switch an option on. -/
def switchWords : List String := ["1", "true", "yes", "on"]

/-- Whether a text switches an option on, in either case and with space around it. -/
def isOn (text : String) : Bool :=
  switchWords.contains (String.ofList ((Text.strip text.toList).map Char.toLower))

/-- Reads an integer variable. One that is no integer is warned of and ignored. -/
def readInteger (environment : List (String × String)) (name : String)
    (set : Options → Int → Options) (r : Read) : Read :=
  match valueOf? environment name with
  | none => r
  | some text =>
    match Text.integer? text with
    | some n => { r with options := set r.options n }
    | none =>
      { r with warnings := r.warnings ++ ["ignoring invalid " ++ name ++ "=" ++ Text.quoted text] }

/-- The options that the environment asks for. -/
def fromEnvironment (environment : List (String × String)) : Except NamelessMacro Read :=
  let definitions := ((valueOf? environment "CMACRO_DEFINES").map parts).getD []
  let removals := ((valueOf? environment "CMACRO_UNDEFINES").map parts).getD []
  (definitions.foldlM define {}).map fun options =>
    let options : Options :=
      { options with
        undefined := removals.map fun name => String.ofList (Text.strip name.toList) }
    let read := readInteger environment "CMACRO_MAX_DEPTH"
      (fun o n => { o with maxDepth := n }) { options }
    let read := readInteger environment "CMACRO_MAX_ERRORS"
      (fun o n => { o with maxErrors := n }) read
    match valueOf? environment "CMACRO_KEEP_COMMENTS" with
    | none => read
    | some text => { read with options := { read.options with keepComments := isOn text } }

end Options

end CPreprocessor
