import Mathlib.Data.Set.Function
import CPreprocessor.Proofs.Expansion.Machine
import CPreprocessor.Proofs.Macro.Printing

/-!
# Parameter names are bound names

An expansion asks little of a definition: its name, how many arguments it takes, and its template, in
which parameters have no names (`Definition.Interchangeable`). So definitions that answer alike can stand
for each other in every expansion (`Expander.expand_interchange`). The names of parameters can be chosen
freely, as long as two of them stay apart and none is that of another token of the replacement list
(`Expander.expand_renameParameters`).
-/

namespace CPreprocessor

/-! ## Definitions that stand for each other -/

/-- Whether two definitions answer alike what an expansion asks of them. -/
structure Definition.Interchangeable (d d' : Definition) : Prop where
  name : d'.name = d.name
  builtin : d'.builtin = d.builtin
  isFunction : d'.isFunction = d.isFunction
  arity : d'.parameters.length = d.parameters.length
  isVariadic : d'.isVariadic = d.isVariadic
  template : d'.template = d.template

theorem Definition.Interchangeable.refl (d : Definition) : d.Interchangeable d :=
  ⟨rfl, rfl, rfl, rfl, rfl, rfl⟩

namespace Invocation

/-- The invocation, by another definition. -/
def redefine (d : Definition) (i : Invocation) : Invocation := { i with definition := d }

variable {i : Invocation} {d : Definition}

theorem expandedIndices_redefine (h : i.definition.Interchangeable d) :
    (i.redefine d).expandedIndices = i.expandedIndices :=
  congrArg Piece.expandedIndices h.template

theorem replacement_redefine (h : i.definition.Interchangeable d)
    (expanded : List (Nat × List Token)) :
    (i.redefine d).replacement expanded = i.replacement expanded := by
  have herror : ∀ fault, (i.redefine d).error fault = i.error fault := by
    intro fault
    rw [error, redefine, h.name, error]
  simp only [replacement, herror]
  rw [show (i.redefine d).definition.template = i.definition.template from h.template]
  rfl

end Invocation

/-- Whether two expanders differ in definitions that stand for each other at most. -/
structure Expander.Interchangeable (e e' : Expander) : Prop where
  lookup : ∀ name, Option.Rel Definition.Interchangeable (e.table.lookup name) (e'.table.lookup name)
  limit : e'.limit = e.limit
  frozen : e'.frozen = e.frozen

namespace Expander

variable {e e' : Expander} {t : Token} {rest : List Token}

theorem call_interchange {d d' : Definition} (h : d.Interchangeable d') (t : Token)
    (rest : List Token) : call d' t rest = (call d t rest).map (.redefine d') := by
  have hsupply : ∀ arguments, ArgumentList.supply d' arguments = ArgumentList.supply d arguments := by
    intro arguments
    rw [ArgumentList.supply, ArgumentList.supply, h.arity, h.isVariadic]
  rw [call, call, h.arity, h.isVariadic]
  cases ArgumentList.read d.parameters.length d.isVariadic 0 [] [] (skipLayout rest).tail with
  | none =>
    rw [h.name]
    rfl
  | some list =>
    dsimp only
    rw [hsupply]
    cases ArgumentList.supply d list.arguments with
    | error fault =>
      rw [h.name]
      rfl
    | ok arguments => rfl

/-- What a turn comes to with definitions that stand for those of `e`. -/
def TurnInterchanges (turn turn' : Except ExpansionError Turn) : Prop :=
  match turn with
  | .ok (.invoke i) => ∃ d, i.definition.Interchangeable d ∧ turn' = .ok (.invoke (i.redefine d))
  | other => turn' = other

theorem turn_interchange (h : e.Interchangeable e') (t : Token) (rest : List Token) :
    TurnInterchanges (e.turn t rest) (e'.turn t rest) := by
  have hdefinition : Option.Rel Definition.Interchangeable (e.definition? t) (e'.definition? t) := by
    rw [definition?, definition?, h.frozen]
    split
    · exact h.lookup t.text
    · exact .none
  rw [turn, turn]
  cases hd : e.definition? t with
  | none =>
    rw [hd] at hdefinition
    cases hd' : e'.definition? t with
    | none => rfl
    | some d' =>
      rw [hd'] at hdefinition
      cases hdefinition
  | some d =>
    rw [hd] at hdefinition
    cases hd' : e'.definition? t with
    | none =>
      rw [hd'] at hdefinition
      cases hdefinition
    | some d' =>
      rw [hd'] at hdefinition
      obtain ⟨hsame⟩ := hdefinition
      dsimp only
      rw [hsame.builtin, hsame.isFunction]
      split
      · rfl
      split
      · rfl
      split
      · exact ⟨d', hsame, rfl⟩
      split
      · rw [call_interchange hsame]
        cases hcall : call d t rest with
        | error error => rfl
        | ok i => exact ⟨d', definition_of_call hcall ▸ hsame, rfl⟩
      · rfl

/-! ## Expansions by definitions that stand for each other -/

theorem exceeds_interchange (h : e.Interchangeable e') (depth size : Nat) :
    e'.exceeds depth size = e.exceeds depth size := by
  rw [exceeds, h.limit, exceeds]

theorem tooDeep_interchange (h : e.Interchangeable e') (i : Invocation) (d : Definition) :
    e'.tooDeep (i.redefine d) = e.tooDeep i := by
  rw [tooDeep, h.limit, tooDeep]
  rfl

theorem runArguments_interchange (h : e.Interchangeable e') {depth : Nat} {i : Invocation}
    {d : Definition}
    (hargument : ∀ index, e'.run (depth + 1) {} (i.argument index) =
      e.run (depth + 1) {} (i.argument index)) (indices : List Nat) :
    runArguments e' depth (i.redefine d) indices = runArguments e depth i indices := by
  rw [runArguments, runArguments]
  congr 1
  funext index
  rw [exceeds_interchange h, tooDeep_interchange h, ← hargument]
  rfl

/-- A run does not depend on which of two definitions that stand for each other it goes by. -/
theorem run_interchange (h : e.Interchangeable e') (depth : Nat) (done : Progress)
    (pending : List Token) : e'.run depth done pending = e.run depth done pending := by
  have hinvoke : ∀ {t : Token} {rest : List Token} {i : Invocation},
      e.turn t rest = .ok (.invoke i) → ∃ d, i.definition.Interchangeable d ∧
        e'.turn t rest = .ok (.invoke (i.redefine d)) := by
    intro t rest i hturn
    have hsame := turn_interchange h t rest
    rwa [hturn] at hsame
  have hroom : ∀ {depth : Nat} {i : Invocation} {b : Bool}, e.exceeds depth i.hide.size = b →
      ∀ d, e'.exceeds depth (i.redefine d).hide.size = b := fun hdeep _ =>
    (exceeds_interchange h ..).trans hdeep
  induction depth, done, pending using run_induction (e := e) with
  | nil depth done => exact run_nil
  | failed depth done t rest error hturn =>
    have hsame := turn_interchange h t rest
    rw [hturn] at hsame
    exact run_of_error hsame
  | emit depth done t rest u hturn ih =>
    have hsame := turn_interchange h t rest
    rw [hturn] at hsame
    exact (run_of_emit hsame).trans ih
  | deep depth done t rest i hturn hdeep =>
    obtain ⟨d, -, hturn'⟩ := hinvoke hturn
    rw [run_of_deep hturn' (hroom hdeep d), tooDeep_interchange h]
  | argument depth done t rest i error hturn hdeep hinner ih =>
    obtain ⟨d, hsame, hturn'⟩ := hinvoke hturn
    refine run_of_argument hturn' (hroom hdeep d) ?_
    rw [Invocation.expandedIndices_redefine hsame, runArguments_interchange h ih, hinner]
  | replacement depth done t rest i inner error hturn hdeep hinner hbody ih =>
    obtain ⟨d, hsame, hturn'⟩ := hinvoke hturn
    have hindices := Invocation.expandedIndices_redefine hsame
    have harguments : runArguments e' depth (i.redefine d) (i.redefine d).expandedIndices = .ok inner := by
      rw [hindices, runArguments_interchange h ih, hinner]
    refine run_of_replacement hturn' (hroom hdeep d) harguments ?_
    rw [hindices, Invocation.replacement_redefine hsame, hbody]
  | invoke depth done t rest i inner body hturn hdeep hinner hbody iharguments ih =>
    obtain ⟨d, hsame, hturn'⟩ := hinvoke hturn
    have hindices := Invocation.expandedIndices_redefine hsame
    have harguments : runArguments e' depth (i.redefine d) (i.redefine d).expandedIndices = .ok inner := by
      rw [hindices, runArguments_interchange h iharguments, hinner]
    refine (run_of_body hturn' (hroom hdeep d) harguments ?_).trans ih
    rw [hindices, Invocation.replacement_redefine hsame, hbody]

theorem expand_interchange (h : e.Interchangeable e') (tokens : List Token) :
    e'.expand tokens = e.expand tokens := by
  rw [expand, run_interchange h, expand]

end Expander

/-! ## Other names for parameters -/

/-- The token with a new name for its spelling, if that is one of some names. -/
def Token.respell (f : String → String) (names : List String) (t : Token) : Token :=
  if t.text ∈ names then { t with text := f t.text } else t

theorem Token.kind_respell (f : String → String) (names : List String) (t : Token) :
    (t.respell f names).kind = t.kind := by
  unfold respell
  split <;> rfl

theorem idxOf?_map {f : String → String} {names : List String} {old new : String}
    (h : ∀ name ∈ names, f name = new ↔ name = old) : (names.map f).idxOf? new = names.idxOf? old := by
  induction names with
  | nil => rfl
  | cons name names ih =>
    obtain ⟨hname, hnames⟩ := List.forall_mem_cons.mp h
    simp only [List.map_cons, List.idxOf?_cons, beq_iff_eq, hname, ih hnames]

theorem getLast?_map_eq_iff {f : String → String} {names : List String} {old new : String}
    (h : ∀ name ∈ names, f name = new ↔ name = old) :
    (names.map f).getLast? = some new ↔ names.getLast? = some old := by
  rw [List.getLast?_map]
  cases hlast : names.getLast? with
  | none => simp
  | some last =>
    rw [Option.map_some, Option.some_inj, Option.some_inj]
    exact h last (List.mem_of_getLast? hlast)

namespace Definition

/-- The definition with its parameters renamed, in the parameter list and in the replacement list. -/
def renameParameters (f : String → String) (d : Definition) : Definition :=
  { d with
    shape :=
      match d.shape with
      | .object => .object
      | .function parameters variadic => .function (parameters.map f) variadic
    replacement := d.replacement.map (.respell f d.parameters) }

/-- Whether `f` gives the parameters of a definition names that can take the place of theirs: two of
them stay apart, and no other token of the replacement list is spelled as one of them. What is spelled as
a parameter is an identifier, as in all tables that can be reached. -/
structure AdmitsNames (d : Definition) (f : String → String) : Prop where
  apart : Set.InjOn f {name | name ∈ d.parameters}
  fresh : ∀ t ∈ d.replacement, t.text ∉ d.parameters → t.text ∉ d.parameters.map f
  identifier : ∀ t ∈ d.replacement, t.text ∈ d.parameters → t.isIdentifier = true

variable {d d' : Definition} {f : String → String} {t : Token}

theorem isFunction_renameParameters : (d.renameParameters f).isFunction = d.isFunction := by
  rw [isFunction, renameParameters, isFunction]
  cases d.shape <;> rfl

theorem isVariadic_renameParameters : (d.renameParameters f).isVariadic = d.isVariadic := by
  rw [isVariadic, renameParameters, isVariadic]
  cases d.shape <;> rfl

theorem parameters_renameParameters : (d.renameParameters f).parameters = d.parameters.map f := by
  rw [parameters, renameParameters, parameters]
  cases d.shape <;> rfl

namespace AdmitsNames

/-- A token is spelled as a parameter was if it now is spelled as that parameter is now. -/
theorem eq_text_respell_iff (h : d.AdmitsNames f) (ht : t ∈ d.replacement) :
    ∀ name ∈ d.parameters, f name = (t.respell f d.parameters).text ↔ name = t.text := by
  intro name hname
  rw [Token.respell]
  split
  · rename_i hown
    exact h.apart.eq_iff hname hown
  · rename_i hother
    refine ⟨fun heq => ?_, fun heq => ?_⟩
    · exact absurd (heq ▸ List.mem_map_of_mem hname) (h.fresh t ht hother)
    · exact absurd (heq ▸ hname) hother

/-- A token that is no parameter stays as it is. -/
theorem respell_of_indexOf? (h : d.AdmitsNames f) (hd : d.isFunction = true) (ht : t ∈ d.replacement)
    (hnone : d.isFunction = true → t.isIdentifier = true → d.indexOf? t.text = none) :
    t.respell f d.parameters = t :=
  if_neg fun hown => List.idxOf?_eq_none_iff.mp (hnone hd (h.identifier t ht hown)) hown

theorem isPunctuator_respell (h : d.AdmitsNames f) (ht : t ∈ d.replacement) (text : String) :
    (t.respell f d.parameters).isPunctuator text = t.isPunctuator text := by
  unfold Token.respell
  split
  · rename_i hown
    have hkind : t.kind ≠ .punctuator := by
      rw [show t.kind = .identifier from of_decide_eq_true (h.identifier t ht hown)]
      decide
    rw [Token.isPunctuator_eq_false_of_kind hkind]
    exact Token.isPunctuator_eq_false_of_kind hkind
  · rfl

theorem readsAs (h : d.AdmitsNames f) (hd : d.isFunction = true)
    (hparameters : d'.parameters = d.parameters.map f) (ht : t ∈ d.replacement) :
    d.ReadsAs d' (.respell f d.parameters) id t where
  isLayout := congrArg Kind.isLayout (Token.kind_respell f d.parameters t)
  isIdentifier := by rw [Token.isIdentifier, Token.kind_respell, Token.isIdentifier]
  isPunctuator := h.isPunctuator_respell ht
  indexOf? := by
    rw [indexOf?, hparameters, idxOf?_map (h.eq_text_respell_iff ht), indexOf?]
  collects := by rw [hparameters, getLast?_map_eq_iff (h.eq_text_respell_iff ht)]
  copied := h.respell_of_indexOf? hd ht

/-- The template does not change with the names of parameters. -/
theorem template_eq (h : d.AdmitsNames f) (hd : d.isFunction = true)
    (hshape : d'.shape = (d.renameParameters f).shape)
    (hbody : d'.replacement = (d.renameParameters f).replacement) : d'.template = d.template := by
  have hfunction : d'.isFunction = d.isFunction := by
    rw [isFunction, hshape, ← isFunction, isFunction_renameParameters]
  have hparameters : d'.parameters = d.parameters.map f := by
    rw [parameters, hshape, ← parameters, parameters_renameParameters]
  have hvariadic : d'.isVariadic = d.isVariadic := by
    rw [isVariadic, hshape, ← isVariadic, isVariadic_renameParameters]
  have harity : d'.parameters.length = d.parameters.length := by
    rw [hparameters, List.length_map]
  rw [template, hbody, renameParameters,
    pieces_map hfunction hvariadic harity false fun t ht => h.readsAs hd hparameters ht]
  exact List.map_id'' (fun _ => Piece.mapToken_eq_self fun _ => rfl) _

theorem interchangeable (h : d.AdmitsNames f) (hd : d.isFunction = true) (version : Nat) :
    d.Interchangeable { d.renameParameters f with version } where
  name := rfl
  builtin := rfl
  isFunction := isFunction_renameParameters
  arity := (congrArg List.length parameters_renameParameters).trans (List.length_map f)
  isVariadic := isVariadic_renameParameters
  template := h.template_eq hd rfl rfl

end AdmitsNames

end Definition

/-! ## Parameters in the tables that can be reached -/

section
open Lexeme

namespace Token

variable {t : Token} {c : Char} {cs : List Char} {n : Nat}

/-- Of the tokens that can be read the identifiers are those that are spelled as names. -/
theorem isIdentifier_iff_isName (h : first c cs = .ok (t.kind, n)) (hu : t.text.toList = c :: cs.take n) :
    t.isIdentifier = true ↔ Definition.IsName t.text := by
  constructor
  · intro hidentifier
    have hkind : t.kind = .identifier := of_decide_eq_true hidentifier
    rcases point_or_alone_of_first h hu (congrArg Kind.isLayout hkind) with ⟨hpoint, -⟩ | halone
    · rw [hkind] at hpoint
      cases hpoint
    · rwa [Alone, hkind] at halone
  · intro hname
    obtain ⟨d, ds, hu', hword⟩ := Alone.first_eq (t := { t with kind := .identifier }) hname rfl
    obtain ⟨rfl, rfl⟩ := List.cons.inj (hu.symm.trans hu')
    have hpoint : t.kind = .number → c = '.' → n ≠ 0 := by
      rintro - rfl rfl
      cases hword
    have hkind := (first_take h hpoint).symm.trans hword
    exact decide_eq_true (Prod.mk.inj (Except.ok.inj hkind)).1

theorem not_isName_blank (location : Location) : ¬ Definition.IsName (blank location).text :=
  have hblank : " ".toList = ' ' :: [].take 0 := by decide
  mt (isIdentifier_iff_isName rfl hblank).mpr Bool.false_ne_true

theorem IsScanned.isIdentifier_iff (h : t.IsScanned) :
    t.isIdentifier = true ↔ Definition.IsName t.text := by
  obtain ⟨s, read, hread, rfl⟩ := h
  rcases Source.blank_or_first_of_mem_scan hread with hblank | ⟨c, cs, n, hfirst, htext⟩
  · rw [hblank]
    exact iff_of_false Bool.false_ne_true (not_isName_blank default)
  · exact isIdentifier_iff_isName hfirst htext

end Token

theorem Definition.isName_variadicName : IsName variadicName :=
  have hu : variadicName.toList = '_' :: "_VA_ARGS__".toList := by decide
  have hfirst : first '_' "_VA_ARGS__".toList = .ok (.identifier, "_VA_ARGS__".toList.length) := by decide
  Token.alone_of_first (t := { kind := .identifier, text := variadicName, location := default }) hu hfirst

/-- The parameters of a macro are spelled as names. -/
theorem Definition.IsParsed.isName {d : Definition} (h : d.IsParsed) {name : String}
    (hname : name ∈ d.parameters) : IsName name := by
  obtain ⟨tokens, location, builtin, htokens, hparse⟩ := h
  obtain ⟨head, rest, shape, after, hskip, -, -, hshape, -, rfl⟩ := parse_eq_ok_iff.mp hparse
  by_cases hcollects : name = variadicName
  · exact hcollects ▸ isName_variadicName
  unfold shapeOf at hshape
  split at hshape
  · cases hshape
    cases hname
  split at hshape
  · split at hshape
    · cases hshape
    · rename_i t clause hopening parameters variadic after' hclause
      cases hshape
      obtain ⟨u, hu, hidentifier, rfl⟩ := (exists_of_parameterClause hclause).2 name hname hcollects
      have hmem : u ∈ tokens :=
        (suffix_of_skipLayout hskip).mem (List.mem_cons_of_mem _ (List.mem_cons_of_mem _ hu))
      exact (htokens u hmem).isIdentifier_iff.mp hidentifier
  · cases hshape
    cases hname

/-- In a table that can be reached, names need only stay apart and be those of no other tokens. -/
theorem Table.Reachable.admitsNames {table : Table} (h : table.Reachable) {d : Definition}
    (hd : d ∈ table.definitions) {f : String → String}
    (apart : Set.InjOn f {name | name ∈ d.parameters})
    (fresh : ∀ t ∈ d.replacement, t.text ∉ d.parameters → t.text ∉ d.parameters.map f) :
    d.AdmitsNames f := by
  suffices hidentifier : ∀ d ∈ table.definitions, ∀ t ∈ d.replacement, t.text ∈ d.parameters →
      t.isIdentifier = true from ⟨apart, fresh, hidentifier d hd⟩
  refine h.forall_definitions (fun d hd version t ht hname => ?_) fun d hd version => ?_
  · have hspelled := hd.isName hname
    obtain ⟨tokens, location, builtin, htokens, hparse⟩ := hd
    rcases Definition.mem_of_parse hparse ht with ht | ⟨location, rfl⟩
    · exact (htokens t ht).isIdentifier_iff.mpr hspelled
    · exact absurd hspelled (Token.not_isName_blank location)
  · have hbuiltin : ∀ d ∈ Builtin.all, ∀ t ∈ d.replacement, t.text ∈ d.parameters →
        t.isIdentifier = true := by decide
    exact hbuiltin d hd

end

/-- Whatever the names of the parameters of a macro in a table, all tokens are expanded to the same
tokens with the same hide sets and places, with the same trace, or with the same error. -/
theorem Expander.expand_renameParameters {e : Expander} {d : Definition} {f : String → String}
    (hd : e.table.lookup d.name = some d) (hfunction : d.isFunction = true) (h : d.AdmitsNames f)
    (tokens : List Token) :
    Expander.expand { e with table := e.table.define (d.renameParameters f) } tokens =
      e.expand tokens := by
  have hsame : e.Interchangeable { e with table := e.table.define (d.renameParameters f) } := by
    refine ⟨fun name => ?_, rfl, rfl⟩
    rw [Table.lookup_define]
    split
    · rename_i hname
      rw [hname, show (d.renameParameters f).name = d.name from rfl, hd]
      exact .some (h.interchangeable hfunction _)
    · cases e.table.lookup name with
      | none => exact .none
      | some d' => exact .some (.refl d')
  exact expand_interchange hsame tokens

/-! ## Parameters with each other's names -/

/-- The macro that `#define log(a, b...) a , ## b # a` defines, without the blanks. -/
def logDefinition : Definition where
  name := "log"
  shape := .function ["a", "b"] true
  replacement := [wordAt "a" 16, markAt "," 18, markAt "##" 20, wordAt "b" 23, markAt "#" 25, wordAt "a" 27]
  version := 1

/-- The two names, exchanged. -/
def exchangedName (name : String) : String := if name = "a" then "b" else "a"

/-- The tokens of `log(x,y)`. -/
def logCall : List Token :=
  [wordAt "log" 1, markAt "(" 4, wordAt "x" 5, markAt "," 6, wordAt "y" 7, markAt ")" 8]

/-- What `log(x,y)` is expanded to. -/
def logged : List Token :=
  [wordAt "x" 5, markAt "," 1, wordAt "y" 7, { wordAt "\"x\"" 1 with kind := .string }].map fun t =>
    { t with hide := HideSet.insert ∅ "log" }

/-- The collecting parameter and the other one exchange their names. -/
theorem Expander.expand_renameParameters_exchanged :
    (Table.define ∅ logDefinition).lookup logDefinition.name = some logDefinition ∧
    logDefinition.isFunction = true ∧ logDefinition.AdmitsNames exchangedName ∧
    Expander.expand
      { table := (Table.define ∅ logDefinition).define (logDefinition.renameParameters exchangedName) }
      logCall = .ok ⟨logged, ["log"]⟩ := by
  have hlookup : (Table.define ∅ logDefinition).lookup logDefinition.name = some logDefinition := by
    decide
  have happart : ∀ name ∈ logDefinition.parameters, ∀ other ∈ logDefinition.parameters,
      exchangedName name = exchangedName other → name = other := by decide
  have hadmits : logDefinition.AdmitsNames exchangedName :=
    ⟨fun name hname other hother => happart name hname other hother, by decide, by decide⟩
  have hrenamed := Expander.expand_renameParameters (e := { table := Table.define ∅ logDefinition })
    hlookup rfl hadmits logCall
  have hhalted : (Machine.step { table := Table.define ∅ logDefinition })^[8] (Machine.start logCall) =
      .halted (.ok ⟨logged.reverse, ["log"]⟩) := by cbv
  refine ⟨hlookup, rfl, hadmits, hrenamed.trans ?_⟩
  rw [Machine.expand_of_halted 8 hhalted]
  rfl

end CPreprocessor
