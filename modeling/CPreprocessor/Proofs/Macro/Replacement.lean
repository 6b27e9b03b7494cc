import Mathlib
import CPreprocessor.Options
import CPreprocessor.Proofs.Source.Content

/-!
# What replacement lists are made of

A definition that is read from tokens keeps no others in its replacement list, blanks aside
(`Definition.mem_of_parse`). So all replacement lists of the tables that runs begin with are made of
tokens that the lexer gives (`Table.isRead_startTable`).
-/

namespace CPreprocessor

variable {t : Token} {tokens rest after : List Token}

/-! ## Definitions -/

namespace Definition

theorem suffix_of_skipLayout (h : skipLayout tokens = after) : after <:+ tokens := by
  rw [← h]
  exact List.dropWhile_suffix _

theorem suffix_of_parameter {seen : List String} {p : Token} {name : String} {variadic : Bool}
    (h : parameter seen p rest = .ok (name, variadic, after)) : after <:+ rest := by
  unfold parameter at h
  split at h
  · cases h
    exact List.suffix_refl _
  split at h
  · split at h
    · cases h
    split at h
    · cases h
    split at h
    · cases h
      exact List.nil_suffix
    · rename_i dots more hskip
      have hmore := suffix_of_skipLayout hskip
      split at h
      · cases h
        exact (List.suffix_cons dots after).trans hmore
      · cases h
        exact hmore
  · cases h

theorem suffix_of_parameterList {last : Location} {seen parameters : List String} {variadic : Bool}
    (h : parameterList last seen tokens = .ok (parameters, variadic, after)) : after <:+ tokens := by
  have hbehind : ∀ {t : Token} {rest us : List Token}, skipLayout us = t :: rest → rest <:+ us :=
    fun hskip => (List.suffix_cons _ _).trans (suffix_of_skipLayout hskip)
  fun_induction parameterList last seen tokens with
  | case1 => cases h
  | case2 => cases h
  | case3 => cases h
  | case4 seen tokens p rest hskip name variadic' more hparameter separator tail hafter hclose =>
    cases h
    exact (hbehind hafter).trans ((suffix_of_parameter hparameter).trans (hbehind hskip))
  | case5 seen tokens p rest hskip name variadic' more hparameter separator tail hafter hclose hcomma
      ih =>
    exact (ih h).trans ((hbehind hafter).trans ((suffix_of_parameter hparameter).trans (hbehind hskip)))
  | case6 => cases h

theorem suffix_of_parameterClause {last : Location} {parameters : List String} {variadic : Bool}
    (h : parameterClause last tokens = .ok (parameters, variadic, after)) : after <:+ tokens := by
  unfold parameterClause at h
  split at h
  · cases h
  · rename_i hskip
    have hrest := suffix_of_skipLayout hskip
    split at h
    · cases h
      exact (List.suffix_cons _ _).trans hrest
    · exact (suffix_of_parameterList h).trans hrest

theorem suffix_of_shapeOf {last : Location} {shape : Shape}
    (h : shapeOf last tokens = .ok (shape, after)) : after <:+ tokens := by
  unfold shapeOf at h
  split at h
  · cases h
    exact List.suffix_refl _
  split at h
  · split at h
    · cases h
    · rename_i hclause
      cases h
      exact (suffix_of_parameterClause hclause).trans (List.suffix_cons _ _)
  · cases h
    exact List.suffix_refl _

theorem mem_of_normalise {gap : Option Location} (ht : t ∈ normalise gap tokens) :
    t ∈ tokens ∨ ∃ location, t = .blank location := by
  induction tokens generalizing gap with
  | nil => cases ht
  | cons p tokens ih =>
    rw [normalise] at ht
    split at ht
    · exact (ih ht).imp_left (List.mem_cons_of_mem p)
    · rcases List.mem_append.mp ht with hblank | ht
      · rw [Option.mem_toList, Option.map_eq_some_iff] at hblank
        obtain ⟨location, -, rfl⟩ := hblank
        exact .inr ⟨location, rfl⟩
      · rcases List.mem_cons.mp ht with rfl | ht
        · exact .inl List.mem_cons_self
        · exact (ih ht).imp_left (List.mem_cons_of_mem p)

/-- What a definition that is read is read from. -/
theorem parse_eq_ok_iff {location : Option Location} {builtin : Bool} {d : Definition} :
    parse tokens location builtin = .ok d ↔
      ∃ name rest shape after, skipLayout tokens = name :: rest ∧ name.isIdentifier = true ∧
        name.text ≠ "defined" ∧ shapeOf (tokens.getLastD name).location rest = .ok (shape, after) ∧
        operatorFault? shape (normalise none (skipLayout after)) = none ∧
        d = { name := name.text, shape, replacement := normalise none (skipLayout after),
              location := name.location, builtin } := by
  constructor
  · intro h
    unfold parse at h
    split at h
    · cases h
    rename_i name rest hskip
    split at h
    · cases h
    rename_i hidentifier
    split at h
    · cases h
    rename_i hreserved
    split at h
    · cases h
    rename_i shape after hshape
    simp only at h
    split at h
    · cases h
    rename_i hoperators
    rw [Bool.not_eq_true, Bool.not_eq_false'] at hidentifier
    exact ⟨name, rest, shape, after, hskip, hidentifier, hreserved, hshape, hoperators,
      (Except.ok.inj h).symm⟩
  · rintro ⟨name, rest, shape, after, hskip, hidentifier, hreserved, hshape, hoperators, rfl⟩
    unfold parse
    rw [hskip]
    simp only [hidentifier, Bool.not_true, Bool.false_eq_true, if_false, if_neg hreserved, hshape,
      hoperators]

/-- A replacement list is made of the tokens it was read from, and of blanks. -/
theorem mem_of_parse {location : Option Location} {builtin : Bool} {d : Definition}
    (h : parse tokens location builtin = .ok d) (ht : t ∈ d.replacement) :
    t ∈ tokens ∨ ∃ location, t = .blank location := by
  obtain ⟨name, rest, shape, after, hskip, -, -, hshape, -, rfl⟩ := parse_eq_ok_iff.mp h
  have hsuffix : skipLayout after <:+ tokens :=
    (suffix_of_skipLayout rfl).trans <| (suffix_of_shapeOf hshape).trans <|
      (List.suffix_cons name rest).trans (suffix_of_skipLayout hskip)
  exact (mem_of_normalise ht).imp_left fun ht => hsuffix.mem ht

end Definition

/-! ## Tables -/

/-- Whether the lexer gives a token of this kind and spelling for some source. -/
def Token.IsRead (t : Token) : Prop :=
  ∃ (s : Source) (read : List Token), s.tokens = .ok read ∧ ∃ u ∈ read, u.form = t.form

namespace Table

variable {table : Table} {d : Definition}

theorem mem_of_mem_put {e : Definition} {definitions : List Definition}
    (h : e ∈ put d definitions) : e = d ∨ e ∈ definitions := by
  induction definitions with
  | nil => exact .inl (List.mem_singleton.mp h)
  | cons f definitions ih =>
    rw [put] at h
    split at h
    · exact (List.mem_cons.mp h).imp_right (List.mem_cons_of_mem f)
    · rcases List.mem_cons.mp h with rfl | h
      · exact .inr List.mem_cons_self
      · exact (ih h).imp_right (List.mem_cons_of_mem f)

/-- Whether all tokens of the replacement lists have a property. -/
def Bodies (Q : Token → Prop) (table : Table) : Prop :=
  ∀ d ∈ table.definitions, ∀ t ∈ d.replacement, Q t

variable {Q : Token → Prop}

theorem Bodies.empty : Bodies Q ∅ := nofun

theorem Bodies.define (h : table.Bodies Q) (hd : ∀ t ∈ d.replacement, Q t) :
    (table.define d).Bodies Q := by
  intro e he
  rcases mem_of_mem_put he with rfl | he
  · exact hd
  · exact h e he

theorem Bodies.undefine (h : table.Bodies Q) (name : String) (location : Option Location) :
    (table.undefine name location).Bodies Q := by
  unfold Table.undefine
  split
  · exact fun e he => h e (List.mem_filter.mp he).1
  · exact h

/-- Whether the replacement lists are made of tokens that were read. -/
abbrev IsRead (table : Table) : Prop := table.Bodies Token.IsRead

theorem isRead_of_parse {location : Option Location} {builtin : Bool}
    (h : Definition.parse tokens location builtin = .ok d) (htokens : ∀ t ∈ tokens, t.IsRead) :
    ∀ t ∈ d.replacement, t.IsRead := by
  intro t ht
  rcases Definition.mem_of_parse h ht with ht | ⟨location, rfl⟩
  · exact htokens t ht
  · have hblank : ∃ read, Source.tokens { text := " " } = .ok [read] ∧
        read.form = (.whitespace, " ") := ⟨_, by cbv, rfl⟩
    obtain ⟨read, hread, hform⟩ := hblank
    exact ⟨_, [read], hread, read, List.mem_singleton_self _, hform⟩

theorem IsRead.defineSource (h : table.IsRead) {s : Source} {table' : Table}
    (hdefine : table.defineSource s = .ok table') : table'.IsRead := by
  obtain ⟨d, hd, rfl⟩ := map_eq_ok_iff.mp hdefine
  unfold Source.definition at hd
  split at hd
  · cases hd
  · rename_i tokens htokens
    refine Bodies.define h fun t ht => ?_
    cases hparse : Definition.parse tokens none false with
    | error fault =>
      rw [hparse] at hd
      cases hd
    | ok d' =>
      rw [hparse] at hd
      cases hd
      exact isRead_of_parse hparse (fun u hu => ⟨s, tokens, htokens, u, hu, rfl⟩) t ht

theorem IsRead.withBuiltins (h : table.IsRead) : table.withBuiltins.IsRead := by
  have hconstant : ∀ text : String, (∃ read, Source.tokens { text } = .ok [read] ∧
      read.form = (.number, text)) → ∀ name, ∀ t ∈ (Builtin.constant name text).replacement,
        t.IsRead := by
    rintro text ⟨read, hread, hform⟩ name t ht
    rw [List.mem_singleton.mp ht]
    exact ⟨_, [read], hread, read, List.mem_singleton_self _, hform⟩
  have hone := hconstant "1" ⟨_, by cbv, rfl⟩
  have hyear := hconstant "201112L" ⟨_, by cbv, rfl⟩
  have hbuiltins : ∀ d ∈ Builtin.all, ∀ t ∈ d.replacement, t.IsRead := by
    intro d hd
    simp only [Builtin.all, Builtin.dynamicNames, List.map_cons, List.map_nil, List.cons_append,
      List.nil_append, List.mem_cons, List.not_mem_nil, or_false] at hd
    rcases hd with rfl | rfl | rfl | rfl | rfl | rfl
    · exact hone _
    · exact hyear _
    · exact hone _
    all_goals exact List.forall_mem_nil _
  have hfold : ∀ (l : List Definition) (table : Table), table.IsRead →
      (∀ d ∈ l, ∀ t ∈ d.replacement, t.IsRead) → (l.foldl Table.define table).IsRead := by
    intro l
    induction l with
    | nil => exact fun _ h _ => h
    | cons d l ih =>
      intro table h hl
      obtain ⟨hd, hl⟩ := List.forall_mem_cons.mp hl
      exact ih _ (h.define hd) hl
  exact hfold Builtin.all table h hbuiltins

/-- What holds of the empty table and lasts when macros are added and removed holds of the tables that
runs begin with. -/
theorem startTable_induction {motive : Table → Prop} (empty : motive ∅)
    (withBuiltins : ∀ table, motive table → motive table.withBuiltins)
    (defineSource : ∀ table s table', motive table → table.defineSource s = .ok table' → motive table')
    (undefine : ∀ table name location, motive table → motive (table.undefine name location))
    {options : Options} (h : options.startTable = .ok table) : motive table := by
  obtain ⟨built, hbuilt, rfl⟩ := map_eq_ok_iff.mp h
  have hdefined : ∀ (lines : List String) (start : Table), motive start →
      lines.foldlM (fun (t : Table) text => t.defineSource { text, file := "<command line>" }) start =
        .ok built → motive built := by
    intro lines
    induction lines with
    | nil =>
      rintro start hstart ⟨⟩
      exact hstart
    | cons line lines ih =>
      intro start hstart hfold
      rw [List.foldlM_cons] at hfold
      cases hline : start.defineSource { text := line, file := "<command line>" } with
      | error report =>
        rw [hline] at hfold
        cases hfold
      | ok next =>
        rw [hline] at hfold
        exact ih next (defineSource _ _ _ hstart hline) hfold
  have hremoved : ∀ (names : List String) (table : Table), motive table →
      motive (names.foldl (fun t name => t.undefine name none) table) := by
    intro names
    induction names with
    | nil => exact fun _ h => h
    | cons name names ih => exact fun table h => ih _ (undefine table name none h)
  refine hremoved _ _ (hdefined _ _ ?_ hbuilt)
  split
  · exact withBuiltins ∅ empty
  · exact empty

/-- The tables that runs begin with are made of tokens that were read. -/
theorem isRead_startTable {options : Options} (h : options.startTable = .ok table) : table.IsRead :=
  startTable_induction Bodies.empty (fun _ => IsRead.withBuiltins)
    (fun _ _ _ h => IsRead.defineSource h) (fun _ name location h => Bodies.undefine h name location) h

end Table

end CPreprocessor
