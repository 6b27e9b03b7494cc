import CPreprocessor.Proofs.Expansion.Lexed

/-!
# The tables that can be reached

A table is reached by definitions that are read from tokens of sources, by the built-in macros and by
removals (`Table.Reachable`). Whatever the tables that runs begin with are asked for, they are reached
in this way (`Table.reachable_startTable`), and all definitions of such a table are sound
(`Table.Reachable.sound`).
-/

namespace CPreprocessor

variable {tokens after : List Token} {last : Location} {d : Definition} {table : Table}

/-! ## Definitions -/

/-- Whether a token is one of a source, or the blank that stands there for a fault. -/
def Token.IsScanned (t : Token) : Prop := ∃ s : Source, ∃ read ∈ s.scan, read.token = t

namespace Definition

/-- Whether a definition is read from tokens of sources. -/
def IsParsed (d : Definition) : Prop :=
  ∃ tokens location builtin, (∀ t ∈ tokens, t.IsScanned) ∧ parse tokens location builtin = .ok d

/-- What later use of a definition relies on: if it is variadic there is a parameter that collects, and
the tokens of its replacement list are spelled as tokens and hide nothing. -/
structure Sound (d : Definition) : Prop where
  collects : d.isVariadic = true → d.parameters ≠ []
  lexed : ∀ t ∈ d.replacement, t.Lexed
  bare : ∀ t ∈ d.replacement, t.hide = ∅

theorem parameters_of_parameterList {seen parameters : List String} {variadic : Bool}
    (h : parameterList last seen tokens = .ok (parameters, variadic, after)) : parameters ≠ [] := by
  fun_induction parameterList last seen tokens with
  | case1 => cases h
  | case2 => cases h
  | case3 => cases h
  | case4 =>
    cases h
    exact List.append_ne_nil_of_right_ne_nil _ (List.cons_ne_nil _ _)
  | case5 seen tokens p rest hskip name variadic' more hparameter separator tail hafter hclose hcomma
      ih =>
    exact ih h
  | case6 => cases h

theorem builtin_of_parse {location : Option Location} {builtin : Bool}
    (h : parse tokens location builtin = .ok d) : d.builtin = builtin := by
  obtain ⟨name, rest, shape, after, -, -, -, -, -, rfl⟩ := parse_eq_ok_iff.mp h
  rfl

theorem name_ne_defined_of_parse {location : Option Location} {builtin : Bool}
    (h : parse tokens location builtin = .ok d) : d.name ≠ "defined" := by
  obtain ⟨name, rest, shape, after, -, -, hreserved, -, -, rfl⟩ := parse_eq_ok_iff.mp h
  exact hreserved

/-- A variadic macro has a last parameter, as `...` itself counts as one. -/
theorem parameters_of_parse {location : Option Location} {builtin : Bool}
    (h : parse tokens location builtin = .ok d) (hvariadic : d.isVariadic = true) :
    d.parameters ≠ [] := by
  obtain ⟨name, rest, shape, after, -, -, -, hshape, -, rfl⟩ := parse_eq_ok_iff.mp h
  unfold shapeOf at hshape
  split at hshape
  · cases hshape
    cases hvariadic
  split at hshape
  · split at hshape
    · cases hshape
    · rename_i hclause
      cases hshape
      unfold parameterClause at hclause
      split at hclause
      · cases hclause
      split at hclause
      · cases hclause
        cases hvariadic
      · exact parameters_of_parameterList hclause
  · cases hshape
    cases hvariadic

end Definition

namespace Token.IsScanned

variable {t : Token}

theorem lexed (h : t.IsScanned) : t.Lexed := by
  obtain ⟨s, read, hread, rfl⟩ := h
  exact Source.lexed_of_mem_scan hread

theorem hide (h : t.IsScanned) : t.hide = ∅ := by
  obtain ⟨s, read, hread, rfl⟩ := h
  obtain ⟨l, -, p, -, rfl⟩ := Source.exists_of_mem_settle hread
  cases l with
  | token kind text => rfl
  | fault cause skipped => rfl

theorem of_tokens {s : Source} (h : s.tokens = .ok tokens) (ht : t ∈ tokens) : t.IsScanned :=
  ⟨s, Source.exists_mem_scan h ht⟩

end Token.IsScanned

theorem Definition.IsParsed.sound (h : d.IsParsed) : d.Sound := by
  obtain ⟨tokens, location, builtin, htokens, hparse⟩ := h
  refine ⟨parameters_of_parse hparse, fun t ht => ?_, fun t ht => ?_⟩
  · rcases mem_of_parse hparse ht with ht | ⟨location, rfl⟩
    · exact (htokens t ht).lexed
    · exact .spelled (Token.spelled_blank location)
  · rcases mem_of_parse hparse ht with ht | ⟨location, rfl⟩
    · exact (htokens t ht).hide
    · rfl

theorem Builtin.sound_of_mem (h : d ∈ Builtin.all) : d.Sound := by
  have hconstant : ∀ name value : String, (∃ c cs, value.toList = c :: cs ∧
      Lexeme.first c cs = .ok (.number, cs.length)) → (constant name value).Sound := by
    rintro name value ⟨c, cs, hvalue, hfirst⟩
    refine ⟨nofun, fun t ht => ?_, fun t ht => ?_⟩
    · rw [List.mem_singleton.mp ht]
      exact Token.lexed_of_first hfirst (hvalue.trans (by rw [List.take_length]))
    · rw [List.mem_singleton.mp ht]
  have hempty : ∀ {d : Definition}, d.replacement = [] → d.isVariadic = false → d.Sound := by
    intro d hnil hvariadic
    refine ⟨fun h => ?_, fun t ht => ?_, fun t ht => ?_⟩
    · rw [hvariadic] at h
      cases h
    all_goals
      rw [hnil] at ht
      cases ht
  simp only [all, dynamicNames, List.map_cons, List.map_nil, List.cons_append, List.nil_append,
    List.mem_cons, List.not_mem_nil, or_false] at h
  rcases h with rfl | rfl | rfl | rfl | rfl | rfl
  · exact hconstant _ _ ⟨'1', [], rfl, by decide⟩
  · exact hconstant _ _ ⟨'2', "01112L".toList, rfl, by decide⟩
  · exact hconstant _ _ ⟨'1', [], rfl, by decide⟩
  all_goals exact hempty rfl rfl

/-! ## Tables -/

namespace Table

/-- The tables that are reached from the empty one. -/
inductive Reachable : Table → Prop
  | empty : Reachable ∅
  | define {table : Table} {d : Definition} (h : Reachable table) (hd : d.IsParsed) :
    Reachable (table.define d)
  | withBuiltins {table : Table} (h : Reachable table) : Reachable table.withBuiltins
  | undefine {table : Table} (h : Reachable table) (name : String) (location : Option Location) :
    Reachable (table.undefine name location)

section
variable {P : Definition → Prop}

theorem forall_define (h : ∀ e ∈ table.definitions, P e) (hd : ∀ version, P { d with version }) :
    ∀ e ∈ (table.define d).definitions, P e := by
  intro e he
  rcases mem_of_mem_put he with rfl | he
  · exact hd _
  · exact h e he

theorem forall_withBuiltins (hbuiltin : ∀ d ∈ Builtin.all, ∀ version, P { d with version })
    (h : ∀ d ∈ table.definitions, P d) : ∀ d ∈ table.withBuiltins.definitions, P d := by
  have hfold : ∀ (l : List Definition) (table : Table), (∀ d ∈ l, ∀ version, P { d with version }) →
      (∀ d ∈ table.definitions, P d) → ∀ d ∈ (l.foldl Table.define table).definitions, P d := by
    intro l
    induction l with
    | nil => exact fun _ _ h => h
    | cons d l ih =>
      intro table hl h
      obtain ⟨hd, hl⟩ := List.forall_mem_cons.mp hl
      exact ih _ hl (forall_define h hd)
  exact hfold Builtin.all table hbuiltin h

/-- What holds of the definitions that are read from tokens, and of the built-in ones, holds of all
definitions of a table that can be reached, if it does not depend on their versions. -/
theorem Reachable.forall_definitions
    (hparsed : ∀ d : Definition, d.IsParsed → ∀ version, P { d with version })
    (hbuiltin : ∀ d ∈ Builtin.all, ∀ version, P { d with version }) (h : table.Reachable) :
    ∀ d ∈ table.definitions, P d := by
  induction h with
  | empty => exact nofun
  | define _ hd ih => exact forall_define ih (hparsed _ hd)
  | withBuiltins _ ih => exact forall_withBuiltins hbuiltin ih
  | undefine _ name location ih =>
    unfold Table.undefine
    split
    · exact fun d hd => ih d (List.mem_filter.mp hd).1
    · exact ih

end

/-- All definitions of a table that can be reached are sound. -/
theorem Reachable.sound (h : table.Reachable) : ∀ d ∈ table.definitions, d.Sound := by
  have versioned : ∀ {d : Definition}, d.Sound → ∀ version, Definition.Sound { d with version } :=
    fun hd _ => ⟨hd.collects, hd.lexed, hd.bare⟩
  exact h.forall_definitions (fun d hd => versioned hd.sound)
    fun d hd => versioned (Builtin.sound_of_mem hd)

/-- The operator is no macro. -/
theorem Reachable.lookup_defined (h : table.Reachable) : table.lookup "defined" = none := by
  have hname : ∀ d ∈ table.definitions, d.name ≠ "defined" := by
    refine h.forall_definitions (fun d hd version => ?_) fun d hd version => ?_
    · obtain ⟨tokens, location, builtin, -, hparse⟩ := hd
      change d.name ≠ "defined"
      exact Definition.name_ne_defined_of_parse hparse
    · exact (by decide : ∀ d ∈ Builtin.all, d.name ≠ "defined") d hd
  exact List.find?_eq_none.mpr fun d hd => by simpa using hname d hd

theorem Reachable.bodies (h : table.Reachable) : table.Bodies Token.Lexed :=
  fun d hd => (h.sound d hd).lexed

/-- The replacement lists of a table that can be reached hide nothing. -/
theorem Reachable.bodies_bare (h : table.Reachable) : table.Bodies fun t => t.hide = ∅ :=
  fun d hd => (h.sound d hd).bare

theorem Reachable.defineSource (h : table.Reachable) {s : Source} {table' : Table}
    (hdefine : table.defineSource s = .ok table') : table'.Reachable := by
  obtain ⟨d, hd, rfl⟩ := map_eq_ok_iff.mp hdefine
  unfold Source.definition at hd
  split at hd
  · cases hd
  · rename_i tokens htokens
    cases hparse : Definition.parse tokens none false with
    | error fault =>
      rw [hparse] at hd
      cases hd
    | ok d' =>
      rw [hparse] at hd
      cases hd
      exact h.define ⟨tokens, none, false, fun t ht => .of_tokens htokens ht, hparse⟩

/-- The tables that runs begin with can be reached. -/
theorem reachable_startTable {options : Options} (h : options.startTable = .ok table) :
    table.Reachable :=
  startTable_induction .empty (fun _ => .withBuiltins) (fun _ _ _ h => h.defineSource)
    (fun _ name location h => h.undefine name location) h

end Table

end CPreprocessor
