import CPreprocessor.Proofs.Directive.Output
import CPreprocessor.Proofs.Expansion.Machine
import CPreprocessor.Proofs.Render.Splice

/-!
# Reading what a run prints

The text of a run is read back as the tokens that the run put out, but for four things that can be
told from those tokens: string literals that are none, points without digits that came before some
digit, words side by side with a literal that has an encoding, and splices
(`Run.exists_tokens_text_iff`).
-/

namespace CPreprocessor

open Token

variable {t : Token} {ts : List Token}

/-- Of the tokens that are printed, only string literals and points may not read as themselves. -/
theorem legible_iff (hts : ∀ t ∈ ts, t.Spelled) :
    Legible ts ↔ (∀ t ∈ ts, t.kind = .string → t.Alone) ∧ (∀ t ∈ ts, t.form ≠ (.number, ".")) ∧
      ts.IsChain fun l r => ¬ l.Glues r := by
  refine ⟨fun h => ⟨fun t ht hkind => ?_, fun t ht hform => ?_, h.apart⟩, fun ⟨hstring, hpoint, hapart⟩ =>
    ⟨fun t ht hlayout => ?_, hapart⟩⟩
  · exact h.alone t ht (by rw [isLayout, hkind]; rfl)
  · obtain ⟨hkind, htext⟩ := Prod.mk.inj hform
    exact not_alone_of_point hkind htext (h.alone t ht (by rw [isLayout, hkind]; rfl))
  · cases hts t ht with
    | space h =>
      rw [h.isLayout] at hlayout
      cases hlayout
    | alone h => exact h
    | string hkind => exact hstring t ht hkind
    | point hkind htext => exact absurd (Prod.ext hkind htext) (hpoint t ht)

namespace Run

/-- The text of a run without comments is read back as the significant tokens that the run put out if
and only if every string literal among these reads as itself, no number is a point without digits, no
word stands right before a literal with an encoding, and the text has no splices. -/
theorem exists_tokens_text_iff (text file : String) (setup : Setup) (table : Table)
    (htable : table.IsRead) (hcomments : setup.keepComments = false) :
    (∃ read, ({ text := (start { source := { text, file }, setup } table).text } : Source).tokens =
        .ok read ∧ forms read = forms (start { source := { text, file }, setup } table).output) ↔
      (∀ t ∈ (start { source := { text, file }, setup } table).output,
          t.kind = .string → t.Alone) ∧
        (∀ t ∈ (start { source := { text, file }, setup } table).output,
          t.form ≠ (.number, ".")) ∧
        ((start { source := { text, file }, setup } table).output.IsChain fun l r => ¬ l.Glues r) ∧
        despliced (start { source := { text, file }, setup } table).text.toList =
          (start { source := { text, file }, setup } table).text.toList := by
  have hspells := spells_start (u := { source := { text, file }, setup }) htable hcomments
    (Int.zero_le_ofNat 1)
  generalize start { source := { text, file }, setup } table = r at hspells ⊢
  have hprinted : r.output.filter isPrinted = r.output :=
    List.filter_eq_self.mpr fun t ht => (hspells.output t ht).isPrinted
  have htext : r.text.toList = renderPrinted r.output := by
    rw [Run.text, render, hprinted, String.toList_ofList]
  rw [Source.exists_tokens_iff, htext, content_despliced_renderPrinted_iff hspells.output,
    legible_iff hspells.output, and_comm, and_assoc, and_assoc]

/-- The output of a run whose last line of text waits to be expanded. -/
theorem start_of_pending {u : SourceUnit} {table defined : Table} {journal : Journal}
    {line : List Token} {expansion : Expander.Expansion}
    (hlines : takeLines u { table, journal := { limit := u.setup.maxErrors } } u.source.logicalLines =
      { table := defined, pending := [line], journal })
    (hexpand : (u.expander defined).expand line = .ok expansion) :
    (start u table).output = expansion.tokens.map (outputToken u.setup.keepComments) ∧
      (start u table).journal = journal := by
  have hflatten : [line].flatten = line := List.flatten_singleton
  simp only [start, hlines, finish, flush, List.isEmpty_cons, Bool.false_eq_true, if_false, hflatten,
    hexpand, emit, List.nil_append, and_self]

end Run

/-! ## Literals with an encoding -/

/-- The macro that stands for its argument, as `#define ID(x) x` defines it. -/
def identityMacro : Definition where
  name := "ID"
  shape := .function ["x"] false
  replacement := [{ kind := .identifier, text := "x", location := ⟨"<input>", 1, 15⟩ }]
  location := some ⟨"<input>", 1, 9⟩

/-- A line that invokes `ID` with a word, right before a literal. -/
def identityLine (word literal : String) : List Token :=
  let at_ (kind : Kind) (text : String) (column : Int) : Token :=
    { kind, text, location := ⟨"<input>", 2, column⟩ }
  [at_ .identifier "ID" 1, at_ .punctuator "(" 3, at_ .identifier word 4, at_ .punctuator ")" 5,
    at_ .string literal 6, at_ .newline "\n" (6 + literal.length)]

/-- What comes of such a line. -/
def identityOutput (word literal : String) : List Token :=
  [{ kind := .identifier, text := word, location := ⟨"<input>", 2, 4⟩, hide := HideSet.insert ∅ "ID" },
    { kind := .string, text := literal, location := ⟨"<input>", 2, 6⟩ },
    { kind := .newline, text := "\n", location := ⟨"<input>", 2, 6 + literal.length⟩ }]

namespace Run

/-- A word that would give a literal its encoding is printed apart from it. -/
theorem exists_tokens_separated :
    ∃ read, ({ text := (start { source := { text := "#define ID(x) x\nID(L)\"b\"\n" } } ∅).text }
        : Source).tokens = .ok read ∧
      forms read = forms (start { source := { text := "#define ID(x) x\nID(L)\"b\"\n" } } ∅).output := by
  have hlines : takeLines { source := { text := "#define ID(x) x\nID(L)\"b\"\n" } }
      { table := ∅, journal := { limit := 100 } }
      (Source.logicalLines { text := "#define ID(x) x\nID(L)\"b\"\n" }) =
        { table := Table.define ∅ identityMacro, pending := [identityLine "L" "\"b\""],
          journal := { limit := 100 } } := by cbv
  have hexpand : Expander.expand { table := Table.define ∅ identityMacro } (identityLine "L" "\"b\"") =
      .ok ⟨identityOutput "L" "\"b\"", ["ID"]⟩ := by
    have hhalted : (Machine.step { table := Table.define ∅ identityMacro })^[7]
        (Machine.start (identityLine "L" "\"b\"")) =
          .halted (.ok ⟨(identityOutput "L" "\"b\"").reverse, ["ID"]⟩) := by cbv
    exact Machine.expand_of_halted 7 hhalted
  refine (exists_tokens_text_iff _ _ {} _ .empty rfl).mpr ?_
  rw [Run.text, (start_of_pending hlines hexpand).1]
  decide +kernel

/-- A word that comes before a literal with an encoding is read back as part of a longer word. -/
theorem not_exists_tokens_glued :
    (start { source := { text := "#define ID(x) x\nID(a)L\"b\"\n" } } ∅).journal.entries = [] ∧
      (start { source := { text := "#define ID(x) x\nID(a)L\"b\"\n" } } ∅).text = "aL\"b\"\n" ∧
      ¬ ∃ read, ({ text := (start { source := { text := "#define ID(x) x\nID(a)L\"b\"\n" } } ∅).text }
          : Source).tokens = .ok read ∧
        forms read =
          forms (start { source := { text := "#define ID(x) x\nID(a)L\"b\"\n" } } ∅).output := by
  have hlines : takeLines { source := { text := "#define ID(x) x\nID(a)L\"b\"\n" } }
      { table := ∅, journal := { limit := 100 } }
      (Source.logicalLines { text := "#define ID(x) x\nID(a)L\"b\"\n" }) =
        { table := Table.define ∅ identityMacro, pending := [identityLine "a" "L\"b\""],
          journal := { limit := 100 } } := by cbv
  have hexpand : Expander.expand { table := Table.define ∅ identityMacro }
      (identityLine "a" "L\"b\"") = .ok ⟨identityOutput "a" "L\"b\"", ["ID"]⟩ := by
    have hhalted : (Machine.step { table := Table.define ∅ identityMacro })^[7]
        (Machine.start (identityLine "a" "L\"b\"")) =
          .halted (.ok ⟨(identityOutput "a" "L\"b\"").reverse, ["ID"]⟩) := by cbv
    exact Machine.expand_of_halted 7 hhalted
  rw [Source.exists_tokens_iff, Run.text, (start_of_pending hlines hexpand).1,
    (start_of_pending hlines hexpand).2]
  decide +kernel

end Run

end CPreprocessor
