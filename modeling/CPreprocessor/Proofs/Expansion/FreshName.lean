import CPreprocessor.Proofs.Expansion.Lasting
import CPreprocessor.Proofs.Expansion.Limit
import CPreprocessor.Proofs.Macro.Replacement

/-!
# Names that nothing mentions

Two expanders that take the same turns at all tokens with a property that lasts run alike on such tokens
(`Expander.run_congr`). Without `##` no expansion spells a new name: that a token is not a certain name
lasts (`Lasting.isNot`). So what a name stands for that neither the tokens nor the replacement lists
mention does not matter (`Expander.expand_define_of_isNot`).
-/

namespace CPreprocessor

namespace Expander

variable {e e' : Expander} {P : Location → Prop} {Q : Token → Prop} {tokens : List Token}

/-! ## Turns that agree on tokens with a lasting property -/

/-- Whether two expanders have the same limit, and take the same turn at every token with a property. -/
structure AgreesOn (Q : Token → Prop) (e e' : Expander) : Prop where
  limit : e'.limit = e.limit
  turn {t : Token} (rest : List Token) : Q t → e'.turn t rest = e.turn t rest

namespace AgreesOn

theorem exceeds (h : e.AgreesOn Q e') (depth size : Nat) :
    e'.exceeds depth size = e.exceeds depth size := by
  rw [Expander.exceeds, h.limit, Expander.exceeds]

theorem tooDeep (h : e.AgreesOn Q e') (i : Invocation) : e'.tooDeep i = e.tooDeep i := by
  rw [Expander.tooDeep, h.limit, Expander.tooDeep]

theorem runArguments (h : e.AgreesOn Q e') {depth : Nat} {i : Invocation}
    (hargument : ∀ index, e'.run (depth + 1) {} (i.argument index) =
      e.run (depth + 1) {} (i.argument index)) (indices : List Nat) :
    Expander.runArguments e' depth i indices = Expander.runArguments e depth i indices := by
  rw [Expander.runArguments, Expander.runArguments]
  congr 1
  funext index
  rw [h.exceeds, h.tooDeep, hargument]

end AgreesOn

/-- What a lasting property says of the arguments of an invocation that were expanded. -/
theorem forall_arguments (hQ : Lasting e.table P Q) {depth : Nat} {i : Invocation}
    (hi : i.Has e.table P Q) {indices : List Nat} {inner : List Progress}
    (h : runArguments e depth i indices = .ok inner) : ∀ p ∈ inner, ∀ t ∈ p.output, Q t := by
  have harguments := outcome_arguments hi indices fun index =>
    run_lasting hQ (depth + 1) {} (i.argument index) nofun (hi.argument index)
  rwa [h] at harguments

/-- Expanders that take the same turns run alike, as long as what they meet is sure to last. -/
theorem run_congr (hQ : Lasting e.table P Q) (h : e.AgreesOn Q e') (depth : Nat) (done : Progress)
    (pending : List Token) (hpending : ∀ t ∈ pending, Q t) :
    e'.run depth done pending = e.run depth done pending := by
  have hinvoke : ∀ {t : Token} {rest : List Token} {i : Invocation},
      e.turn t rest = .ok (.invoke i) → (∀ u ∈ t :: rest, Q u) →
        e'.turn t rest = .ok (.invoke i) ∧ i.Has e.table P Q := by
    intro t rest i hturn hpending
    obtain ⟨ht, hrest⟩ := List.forall_mem_cons.mp hpending
    exact ⟨(h.turn rest ht).trans hturn, has_turn hQ hturn ht hrest⟩
  induction depth, done, pending using run_induction (e := e) with
  | nil depth done => exact run_nil
  | failed depth done t rest error hturn =>
    exact run_of_error ((h.turn rest (hpending t List.mem_cons_self)).trans hturn)
  | emit depth done t rest u hturn ih =>
    obtain ⟨ht, hrest⟩ := List.forall_mem_cons.mp hpending
    exact (run_of_emit ((h.turn rest ht).trans hturn)).trans (ih hrest)
  | deep depth done t rest i hturn hdeep =>
    obtain ⟨hturn', -⟩ := hinvoke hturn hpending
    rw [run_of_deep hturn' ((h.exceeds ..).trans hdeep), h.tooDeep]
  | argument depth done t rest i error hturn hdeep hinner ih =>
    obtain ⟨hturn', hi⟩ := hinvoke hturn hpending
    have harguments := h.runArguments (fun index => ih index (hi.argument index)) i.expandedIndices
    exact run_of_argument hturn' ((h.exceeds ..).trans hdeep) (harguments.trans hinner)
  | replacement depth done t rest i inner error hturn hdeep hinner hbody ih =>
    obtain ⟨hturn', hi⟩ := hinvoke hturn hpending
    have harguments := h.runArguments (fun index => ih index (hi.argument index)) i.expandedIndices
    exact run_of_replacement hturn' ((h.exceeds ..).trans hdeep) (harguments.trans hinner) hbody
  | invoke depth done t rest i inner body hturn hdeep hinner hbody iharguments ih =>
    obtain ⟨hturn', hi⟩ := hinvoke hturn hpending
    have harguments := h.runArguments (fun index => iharguments index (hi.argument index))
      i.expandedIndices
    have hreplaced : ∀ t ∈ body, Q t :=
      hi.replacement hQ (mem_zip_tokens (forall_arguments hQ hi hinner)) hbody
    refine (run_of_body hturn' ((h.exceeds ..).trans hdeep) (harguments.trans hinner) hbody).trans ?_
    exact ih (List.forall_mem_append.mpr ⟨hreplaced, hi.rest⟩)

theorem expand_congr (hQ : Lasting e.table P Q) (h : e.AgreesOn Q e') (htokens : ∀ t ∈ tokens, Q t) :
    e'.expand tokens = e.expand tokens := by
  have hrun := run_congr hQ h 0 {} (tokens.filter fun t => t.kind ≠ .endOfInput)
    fun t ht => htokens t (List.mem_filter.mp ht).1
  rw [expand, hrun, expand]

end Expander

/-! ## Tokens that are not a certain name -/

/-- Whether a token is not the name `name`. A literal may be spelled like it. -/
def Token.IsNot (name : String) (t : Token) : Prop := t.isIdentifier = true → t.text ≠ name

namespace Token

variable {name : String} {t : Token}

theorem isNot_of_kind (h : t.kind ≠ .identifier) : t.IsNot name := fun hname =>
  absurd (of_decide_eq_true hname) h

theorem IsNot.withoutNewline (h : t.IsNot name) : t.withoutNewline.IsNot name := by
  rcases t.kind_withoutNewline with hkind | heq
  · exact isNot_of_kind (hkind ▸ nofun)
  · exact heq.symm ▸ h

theorem isNot_dynamicValue (t : Token) : (dynamicValue t).IsNot name := by
  rcases t.kind_dynamicValue with hkind | hkind
  · exact isNot_of_kind (hkind ▸ nofun)
  · exact isNot_of_kind (hkind ▸ nofun)

end Token

/-- Only `##` spells new names: where there is none, that a token is not a name which the replacement
lists do not mention lasts. -/
theorem Lasting.isNot {table : Table} {name : String} (hjoins : ¬ table.Joins)
    (hbodies : table.Bodies (Token.IsNot name)) :
    Lasting table (fun _ => True) (Token.IsNot name) where
  location _ _ := trivial
  paint := id
  hideBy _ := id
  withoutNewline := Token.IsNot.withoutNewline
  dynamicValue {t} _ := t.isNot_dynamicValue
  copy {d} {t} _ hd ht _ := hbodies d hd t ht
  stringize _ _ := Token.isNot_of_kind nofun
  placemarker _ := Token.isNot_of_kind nofun
  paste hjoin := absurd hjoin hjoins

/-! ## Definitions that are not mentioned -/

theorem Table.mem_undefine {table : Table} {name : String} {location : Option Location}
    {d : Definition} (h : d ∈ (table.undefine name location).definitions) :
    d ∈ table.definitions ∧ d.name ≠ name := by
  unfold undefine at h
  split at h
  · obtain ⟨hd, hname⟩ := List.mem_filter.mp h
    exact ⟨hd, of_decide_eq_true hname⟩
  · rename_i hnone
    refine ⟨h, fun hname => hnone (List.find?_isSome.mpr ⟨d, h, decide_eq_true hname⟩)⟩

namespace Expander

variable {e : Expander} {name : String} {tokens : List Token}

/-- The expander with another table. -/
def withTable (e : Expander) (table : Table) : Expander := { e with table }

/-- Tables that differ in what one name stands for are the same to all tokens but that name. -/
theorem AgreesOn.withTable {table : Table}
    (h : ∀ other, other ≠ name → table.lookup other = e.table.lookup other) :
    e.AgreesOn (Token.IsNot name) (e.withTable table) := by
  refine ⟨rfl, fun {t} rest ht => ?_⟩
  have hdefinition : (e.withTable table).definition? t = e.definition? t := by
    refine ite_congr rfl (fun hname => ?_) fun _ => rfl
    exact h t.text (ht (Bool.and_eq_true_iff.mp (Bool.and_eq_true_iff.mp hname).1).1)
  rw [Expander.turn, hdefinition, Expander.turn]

/-- Tables that differ in what one name stands for expand tokens alike, if nothing mentions the name and
the one has no `##`. -/
theorem expand_withTable {table : Table} (hjoins : ¬ e.table.Joins)
    (hbodies : e.table.Bodies (Token.IsNot name)) (htokens : ∀ t ∈ tokens, t.IsNot name)
    (h : ∀ other, other ≠ name → table.lookup other = e.table.lookup other) :
    (e.withTable table).expand tokens = e.expand tokens :=
  expand_congr (.isNot hjoins hbodies) (.withTable h) htokens

/-- A definition that neither the tokens nor the other replacement lists mention does not matter. Where
no `##` could spell its name, the tokens have the same expansion, with the same trace, or end in the same
error, whether the definition is added to the table or its name has none. -/
theorem expand_define_of_isNot (e : Expander) (d : Definition) (location : Option Location)
    (hjoins : ∀ d' ∈ e.table.definitions, d'.name ≠ d.name →
      ∀ t ∈ d'.replacement, t.isPunctuator "##" = false)
    (hbodies : ∀ d' ∈ e.table.definitions, d'.name ≠ d.name → ∀ t ∈ d'.replacement, t.IsNot d.name)
    (htokens : ∀ t ∈ tokens, t.IsNot d.name) :
    (e.withTable (e.table.define d)).expand tokens = e.expand tokens ∧
    (e.withTable (e.table.undefine d.name location)).expand tokens = e.expand tokens := by
  -- The table in which the name stands for nothing is the one without `##` and without the name.
  have hless : ∀ table : Table, (∀ other, other ≠ d.name → table.lookup other = e.table.lookup other) →
      (e.withTable table).expand tokens =
        (e.withTable (e.table.undefine d.name location)).expand tokens := by
    intro table htable
    refine expand_withTable (e := e.withTable (e.table.undefine d.name location)) ?_ ?_ htokens ?_
    · rintro ⟨d', hd', t, ht, hjoin⟩
      obtain ⟨hmem, hname⟩ := Table.mem_undefine hd'
      rw [hjoins d' hmem hname t ht] at hjoin
      cases hjoin
    · intro d' hd' t ht
      obtain ⟨hmem, hname⟩ := Table.mem_undefine hd'
      exact hbodies d' hmem hname t ht
    · intro other hother
      exact (htable other hother).trans
        ((Table.lookup_undefine ..).trans (if_neg hother)).symm
  have hown : e.expand tokens =
      (e.withTable (e.table.undefine d.name location)).expand tokens := hless e.table fun _ _ => rfl
  refine ⟨?_, hown.symm⟩
  rw [hown]
  exact hless _ fun other hother => (Table.lookup_define ..).trans (if_neg hother)

end Expander

/-! ## A macro that joins -/

/-- The macro that `#define join(a, b) a ## b` defines, without the blanks. -/
def joinDefinition : Definition where
  name := "join"
  shape := .function ["a", "b"] false
  replacement := [wordAt "a" 19, markAt "##" 21, wordAt "b" 24]

/-- The definition that comes and goes may have a `##` itself. -/
theorem Expander.expand_define_of_isNot_join :
    (∀ d ∈ twiceTable.definitions, d.name ≠ "join" →
      ∀ t ∈ d.replacement, t.isPunctuator "##" = false) ∧
    (∀ d ∈ twiceTable.definitions, d.name ≠ "join" → ∀ t ∈ d.replacement, t.IsNot "join") ∧
    (∀ t ∈ twiceNested, t.IsNot "join") ∧
    Expander.expand { table := twiceTable.define joinDefinition } twiceNested =
      .ok ⟨List.replicate 4 { wordAt "a" 13 with hide := HideSet.insert ∅ "twice" },
        ["twice", "twice"]⟩ := by
  have hjoins : ∀ d ∈ twiceTable.definitions, d.name ≠ "join" →
      ∀ t ∈ d.replacement, t.isPunctuator "##" = false := by decide
  have hbodies : ∀ d ∈ twiceTable.definitions, d.name ≠ "join" →
      ∀ t ∈ d.replacement, t.IsNot "join" := by
    unfold Token.IsNot
    decide
  have htokens : ∀ t ∈ twiceNested, t.IsNot "join" := by
    unfold Token.IsNot
    decide
  have hexpand :=
    Expander.expand_define_of_isNot { table := twiceTable } joinDefinition none hjoins hbodies htokens
  have hhalted : (Machine.step { table := twiceTable })^[12] (Machine.start twiceNested) =
      .halted (.ok ⟨List.replicate 4 { wordAt "a" 13 with hide := HideSet.insert ∅ "twice" },
        ["twice", "twice"]⟩) := by cbv
  exact ⟨hjoins, hbodies, htokens, hexpand.1.trans (Machine.expand_of_halted 12 hhalted)⟩

end CPreprocessor
