import CPreprocessor.Text.Console

/-!
The arguments of the command. An option is written `--name value`, `--name=value`, `-n value` or
`-nvalue`; one-letter options without a value may share a dash. Options may stand before and after
the file, and `--` ends them.
-/

namespace CPreprocessor

/-- The options that take a value. -/
inductive ValueOption
  | output
  | define
  | undefine
  | maxDepth
deriving DecidableEq, Inhabited

/-- The options without a value. -/
inductive Flag
  | keepComments
  | warnUndefined
  | tokens
  | verdicts
  | verbose
  | version
deriving DecidableEq, Inhabited

/-- What an option name stands for. -/
inductive OptionName
  | valued (o : ValueOption)
  | flag (f : Flag)
deriving DecidableEq, Inhabited

/-- One argument, or an option with the argument that is its value. -/
inductive Argument
  | valued (o : ValueOption) (value : String)
  | flag (f : Flag)
  | positional (text : String)
deriving DecidableEq, Inhabited

namespace OptionName

/-- The options by their long names. -/
def long : List (String × OptionName) :=
  [("output", .valued .output), ("define", .valued .define), ("undefine", .valued .undefine),
   ("max-depth", .valued .maxDepth), ("keep-comments", .flag .keepComments),
   ("warn-undef", .flag .warnUndefined), ("tokens", .flag .tokens), ("verdicts", .flag .verdicts),
   ("verbose", .flag .verbose), ("version", .flag .version)]

/-- The options by their letters. -/
def short : List (Char × OptionName) :=
  [('o', .valued .output), ('D', .valued .define), ('U', .valued .undefine),
   ('C', .flag .keepComments), ('v', .flag .verbose)]

end OptionName

namespace Argument

/-- Reads an option by its long name, without the dashes, in front of `rest`. -/
def ofLong (text : List Char) (rest : List String) : Option (Argument × List String) :=
  let value := text.dropWhile (· ≠ '=')
  match OptionName.long.lookup (String.ofList (text.takeWhile (· ≠ '='))) with
  | none => none
  | some (.flag f) => if value.isEmpty then some (.flag f, rest) else none
  | some (.valued o) =>
    match value, rest with
    | _ :: value, _ => some (.valued o (String.ofList value), rest)
    | [], next :: rest => some (.valued o next, rest)
    | [], [] => none

/-- Reads options by their letters in front of `rest`. What follows the letter of an option with a
value is its value. -/
def ofShort (letters : List Char) (rest : List String) : Option (List Argument × List String) :=
  match letters with
  | [] => some ([], rest)
  | letter :: letters =>
    match OptionName.short.lookup letter with
    | none => none
    | some (.flag f) => (ofShort letters rest).map fun (read, rest) => (.flag f :: read, rest)
    | some (.valued o) =>
      if letters.isEmpty then
        match rest with
        | [] => none
        | next :: rest => some ([.valued o next], rest)
      else some ([.valued o (String.ofList letters)], rest)

/-- Reads the argument `text` in front of `rest`, or the options that it is. -/
def ofText (text : String) (rest : List String) : Option (List Argument × List String) :=
  match text.toList with
  | '-' :: '-' :: name => (ofLong name rest).map fun (read, rest) => ([read], rest)
  | '-' :: letter :: letters => ofShort (letter :: letters) rest
  | _ => some ([.positional text], rest)

theorem length_of_ofText {text : String} {rest after : List String} {read : List Argument}
    (h : ofText text rest = some (read, after)) : after.length ≤ rest.length := by
  have short : ∀ (letters : List Char) (rest after : List String) (read : List Argument),
      ofShort letters rest = some (read, after) → after.length ≤ rest.length := by
    intro letters
    induction letters with
    | nil => intro rest after read h; simp [ofShort] at h; simp [h.2]
    | cons letter letters ih =>
      intro rest after read h
      unfold ofShort at h
      split at h
      · simp at h
      · simp only [Option.map_eq_some_iff, Prod.exists, Prod.mk.injEq] at h
        obtain ⟨read', rest', h', _, rfl⟩ := h
        exact ih _ _ _ h'
      · split at h
        · split at h
          · simp at h
          · simp only [Option.some.injEq, Prod.mk.injEq] at h
            simp [← h.2]
        · simp only [Option.some.injEq, Prod.mk.injEq] at h
          simp [← h.2]
  unfold ofText at h
  split at h
  · simp only [Option.map_eq_some_iff, Prod.exists, Prod.mk.injEq] at h
    obtain ⟨read', rest', h', _, rfl⟩ := h
    unfold ofLong at h'
    dsimp only at h'
    split at h'
    · simp at h'
    · split at h' <;> simp at h'
      simp [← h'.2]
    · split at h' <;> simp at h' <;> simp [← h'.2]
  · exact short _ _ _ _ h
  · simp only [Option.some.injEq, Prod.mk.injEq] at h
    simp [← h.2]

/-- Reads all arguments. Nothing is read if one of them is no argument of the command. -/
def readAll (arguments : List String) : Option (List Argument) :=
  match arguments with
  | [] => some []
  | text :: rest =>
    if text = "--" then some (rest.map .positional)
    else
      match _hread : ofText text rest with
      | none => none
      | some (read, after) => (readAll after).map (read ++ ·)
termination_by arguments.length
decreasing_by
  have := length_of_ofText _hread
  simp only [List.length_cons]
  omega

end Argument

/-- What the command is asked to do with a file. -/
structure Task where
  input : String
  output : Option String := none
  defines : List String := []
  undefines : List String := []
  maxDepth : Option Int := none
  keepComments : Bool := false
  warnUndefined : Bool := false
  /-- print tokens in the place of text -/
  tokens : Bool := false
  /-- print verdicts after the text -/
  verdicts : Bool := false
deriving DecidableEq, Inhabited

/-- What the command is asked to do. -/
inductive Request
  | version
  | task (t : Task)
deriving DecidableEq, Inhabited

namespace Request

/-- The values given for an option, in order. -/
def values (o : ValueOption) (arguments : List Argument) : List String :=
  arguments.filterMap fun
    | .valued p value => if p = o then some value else none
    | _ => none

def positionals (arguments : List Argument) : List String :=
  arguments.filterMap fun
    | .positional text => some text
    | _ => none

/-- The depth limit that a text gives: at least 1. -/
def depth? (text : String) : Option Int := (Text.integer? text).filter (1 ≤ ·)

/-- What arguments ask for. There must be one file. A version is shown whatever else is asked. -/
def ofArguments (arguments : List String) : Option Request :=
  match Argument.readAll arguments with
  | none => none
  | some read =>
    let has (f : Flag) : Bool := read.contains (.flag f)
    let depth := (values .maxDepth read).getLast?
    if has .version then some .version
    else if (depth.map depth?) = some none then none
    else
      match positionals read with
      | [input] =>
        some <| .task
          { input
            output := (values .output read).getLast?
            defines := values .define read
            undefines := values .undefine read
            maxDepth := depth.bind depth?
            keepComments := has .keepComments
            warnUndefined := has .warnUndefined
            tokens := has .tokens
            verdicts := has .verdicts }
      | _ => none

end Request

end CPreprocessor
