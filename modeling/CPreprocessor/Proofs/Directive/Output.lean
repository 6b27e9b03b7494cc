import CPreprocessor.Proofs.Directive.Agreement
import CPreprocessor.Proofs.Expansion.Lexed

/-!
# What a run puts out

A run keeps three things: the replacement lists of its table are made of tokens, so are the lines that
wait, and what it has put out is spelled as it may be printed (`Run.Spells`). Every step keeps them.
-/

namespace CPreprocessor.Run

variable {u : SourceUnit} {r r₁ r₂ : Run} {rest line : List Token} {mark : Location}

/-! ## Steps that put nothing out -/

/-- A step that changes neither the macros nor the text, put out or waiting. -/
structure Keeps (r r' : Run) : Prop where
  table : r'.table = r.table
  output : r'.output = r.output
  pending : r'.pending = r.pending

namespace Keeps

theorem trans {r₃ : Run} (h₁ : Keeps r₁ r₂) (h₂ : Keeps r₂ r₃) : Keeps r₁ r₃ :=
  ⟨h₂.table.trans h₁.table, h₂.output.trans h₁.output, h₂.pending.trans h₁.pending⟩

theorem of_onlyNotes (h : OnlyNotes r₁ r₂) : Keeps r₁ r₂ :=
  ⟨congrArg Effect.table h.effect, congrArg Effect.output h.effect, h.pending⟩

theorem select (r : Run) (directive : Conditional) (taken : Bool) :
    Keeps r (r.select directive mark taken rest) := by
  unfold Run.select setBranch
  split
  · split
    · exact ⟨rfl, rfl, rfl⟩
    · exact ⟨rfl, rfl, rfl⟩
  · exact ⟨rfl, rfl, rfl⟩

theorem openFrame (u : SourceUnit) (r : Run) (opening : Opening) :
    Keeps r (r.openFrame u opening rest mark) := by
  have push : ∀ branch : Branch,
      Keeps r { r with frames := { opening, branch, location := mark } :: r.frames } :=
    fun _ => ⟨rfl, rfl, rfl⟩
  simp only [Run.openFrame]
  split
  · split
    · exact ((push .awaiting).trans (of_onlyNotes (test_spec ..).1)).trans (select ..)
    all_goals
      split
      · exact (push .awaiting).trans (of_onlyNotes (.record ..))
      · exact ((push .awaiting).trans (of_onlyNotes (.warnExtra ..))).trans (select ..)
  · exact (push .dead).trans ⟨rfl, rfl, rfl⟩

theorem otherwise (r : Run) (frame : Frame) (outer : List Frame) :
    Keeps r (r.otherwise frame outer rest mark) := by
  have noted : Keeps r (r.warnExtraInside .otherwise rest) := of_onlyNotes (.warnExtraInside ..)
  simp only [Run.otherwise]
  split
  all_goals exact noted.trans ⟨rfl, rfl, rfl⟩

theorem elseIf (u : SourceUnit) (r : Run) (frame : Frame) :
    Keeps r (r.elseIf u frame rest mark) := by
  simp only [Run.elseIf]
  split
  · exact (of_onlyNotes (test_spec ..).1).trans (select ..)
  · rw [setBranch]
    split
    · exact ⟨rfl, rfl, rfl⟩
    · exact ⟨rfl, rfl, rfl⟩
  · exact ⟨rfl, rfl, rfl⟩
  · exact ⟨rfl, rfl, rfl⟩

theorem conditional (u : SourceUnit) (r : Run) (directive : Conditional) :
    Keeps r (r.conditional u directive rest mark) := by
  unfold Run.conditional
  split
  · exact openFrame ..
  · exact ⟨rfl, rfl, rfl⟩
  · exact (of_onlyNotes (.warnExtraInside r .closing rest)).trans ⟨rfl, rfl, rfl⟩
  · exact ⟨rfl, rfl, rfl⟩
  · exact ⟨rfl, rfl, rfl⟩
  · split
    · exact ⟨rfl, rfl, rfl⟩
    · exact otherwise ..
  · split
    · exact ⟨rfl, rfl, rfl⟩
    · exact elseIf ..

end Keeps

/-! ## Steps that put something out -/

/-- Whether a run has only tokens: in the definitions, in the lines that wait, and in what it has put
out, where there are no comments. -/
structure Spells (r : Run) : Prop where
  table : r.table.Bodies Token.Lexed
  pending : ∀ line ∈ r.pending, ∀ t ∈ line, t.Lexed ∧ 0 ≤ t.location.line
  output : ∀ t ∈ r.output, t.Spelled

namespace Spells

theorem keeps (hr : r₁.Spells) (h : Keeps r₁ r₂) : r₂.Spells where
  table := h.table ▸ hr.table
  pending := h.pending ▸ hr.pending
  output := h.output ▸ hr.output

theorem emit (hr : r.Spells) (hcomments : u.setup.keepComments = false)
    (h : ∀ t ∈ line, t.Lexed ∧ t.kind ≠ .placemarker) : (r.emit u line).Spells := by
  refine ⟨hr.table, hr.pending, List.forall_mem_append.mpr ⟨hr.output, ?_⟩⟩
  intro t ht
  obtain ⟨p, hp, rfl⟩ := List.mem_map.mp ht
  obtain ⟨hlexed, hkind⟩ := h p hp
  rw [outputToken, hcomments, Bool.not_false, Bool.and_true]
  cases hlexed with
  | spelled h =>
    split
    · exact Token.spelled_blank p.location
    · exact h
  | comment hcomment =>
    rw [if_pos (decide_eq_true hcomment)]
    exact Token.spelled_blank p.location
  | placemarker h => exact absurd h hkind

theorem expanded (hr : r.Spells) (hcomments : u.setup.keepComments = false)
    (hline : ∀ t ∈ line, t.Lexed ∧ 0 ≤ t.location.line) {expansion : Expander.Expansion}
    (h : (u.expander r.table).expand line = .ok expansion) : (r.emit u expansion.tokens).Spells := by
  have hlasts := Expander.expand_lasting (e := u.expander r.table) (.lexed hr.table) hline
  rw [h] at hlasts
  exact hr.emit hcomments fun t ht => ⟨(hlasts t ht).1.1, (hlasts t ht).2⟩

theorem expandLine (hr : r.Spells) (hcomments : u.setup.keepComments = false)
    (hline : ∀ t ∈ line, t.Lexed ∧ 0 ≤ t.location.line) : (expandLine u r line).Spells := by
  unfold Run.expandLine
  split
  · rename_i expansion h
    exact hr.expanded hcomments hline h
  · exact hr.keeps (.of_onlyNotes (.record ..))

theorem flush (hr : r.Spells) (hcomments : u.setup.keepComments = false) : (r.flush u).Spells := by
  have hcleared : Spells { r with pending := [] } := ⟨hr.table, nofun, hr.output⟩
  have hlines : ∀ (lines : List (List Token)) (r : Run), r.Spells →
      (∀ line ∈ lines, ∀ t ∈ line, t.Lexed ∧ 0 ≤ t.location.line) →
        (lines.foldl (Run.expandLine u) r).Spells := by
    intro lines
    induction lines with
    | nil => exact fun _ hr _ => hr
    | cons line lines ih =>
      intro r hr h
      obtain ⟨hline, hlines⟩ := List.forall_mem_cons.mp h
      exact ih _ (hr.expandLine hcomments hline) hlines
  simp only [Run.flush]
  split
  · exact hcleared
  split
  · rename_i expansion h
    refine hcleared.expanded hcomments (fun t ht => ?_) h
    obtain ⟨line, hline, ht⟩ := List.mem_flatten.mp ht
    exact hr.pending line hline t ht
  · exact hlines _ _ hcleared hr.pending

theorem define (hr : r.Spells) (hrest : ∀ t ∈ rest, t.Lexed) : (r.define rest mark).Spells := by
  have hdefined : ∀ {d : Definition}, Definition.parse rest mark false = .ok d →
      Spells { r with table := r.table.define d } := by
    intro d hd
    refine ⟨hr.table.define fun t ht => ?_, hr.pending, hr.output⟩
    rcases Definition.mem_of_parse hd ht with ht | ⟨location, rfl⟩
    · exact hrest t ht
    · exact .spelled (Token.spelled_blank location)
  unfold Run.define
  split
  · exact hr.keeps (.of_onlyNotes (.record ..))
  · rename_i d hd
    split
    · exact hr.keeps (.of_onlyNotes (.warn ..))
    · simp only
      split
      · exact hdefined hd
      · exact (hdefined hd).keeps (.of_onlyNotes (.warn ..))

theorem undefine (hr : r.Spells) : (r.undefine u rest mark).Spells := by
  unfold Run.undefine
  split
  · exact hr.keeps (.of_onlyNotes (.record ..))
  · rename_i name extra hname
    have hnoted := hr.keeps (.of_onlyNotes (.warnExtra r "undef" extra))
    have hremoved : ∀ {r : Run}, r.Spells →
        Spells { r with table := r.table.undefine name.text name.location } :=
      fun hr => ⟨Table.Bodies.undefine hr.table _ _, hr.pending, hr.output⟩
    simp only
    split
    · exact hremoved (hnoted.keeps (.of_onlyNotes (.warn ..)))
    · exact hremoved hnoted

theorem directive (hr : r.Spells) (mark name : Token) (hrest : ∀ t ∈ rest, t.Lexed) :
    (r.directive u mark name rest).Spells := by
  unfold Run.directive
  split
  · exact hr.keeps (.conditional ..)
  split
  · split
    · exact hr.define hrest
    · exact hr.undefine
    · exact hr.keeps ⟨rfl, rfl, rfl⟩
    · exact hr.keeps ⟨rfl, rfl, rfl⟩
    · exact hr.keeps ⟨rfl, rfl, rfl⟩
    · exact hr
    · exact hr
    · exact hr.keeps ⟨rfl, rfl, rfl⟩
  · exact hr

theorem takeLine (hr : r.Spells) (hcomments : u.setup.keepComments = false)
    (hline : ∀ t ∈ line, t.Lexed ∧ 0 ≤ t.location.line) : (r.takeLine u line).Spells := by
  unfold Run.takeLine
  split
  · split
    · exact ⟨hr.table, List.forall_mem_append.mpr ⟨hr.pending, List.forall_mem_singleton.mpr hline⟩,
        hr.output⟩
    · exact hr
  · exact hr.flush hcomments
  · simp only
    split
    · exact (hr.flush hcomments).keeps ⟨rfl, rfl, rfl⟩
    · exact hr.flush hcomments
  · rename_i mark name rest hform
    exact (hr.flush hcomments).directive mark name fun t ht =>
      (hline t ((LineForm.mem_of hform).2.2 t ht)).1

theorem takeLines (hr : r.Spells) (hcomments : u.setup.keepComments = false)
    {lines : List (List Scanned)}
    (hlines : ∀ line ∈ lines, ∀ t ∈ line, t.token.Lexed ∧ 0 ≤ t.token.location.line) :
    (takeLines u r lines).Spells := by
  induction lines generalizing r with
  | nil => exact hr
  | cons line lines ih =>
    obtain ⟨hline, hlines⟩ := List.forall_mem_cons.mp hlines
    have hnoted := hr.keeps (.of_onlyNotes (.noteFaults (u := u) r line))
    simp only [Run.takeLines]
    split
    · exact hnoted
    · refine ih ((hnoted.takeLine hcomments fun t ht => ?_).keeps (.of_onlyNotes (.checkJournal _)))
        hlines
      obtain ⟨scanned, hscanned, rfl⟩ := List.mem_map.mp ht
      exact hline scanned hscanned

theorem finish (hr : r.Spells) (hcomments : u.setup.keepComments = false) :
    (r.finish u).Spells := by
  simp only [Run.finish]
  split
  · exact hr
  split
  · exact hr.flush hcomments
  · exact (hr.flush hcomments).keeps ⟨rfl, rfl, rfl⟩

end Spells

/-- What a run puts out is spelled as it may be printed. -/
theorem spells_start {table : Table} (htable : table.IsRead)
    (hcomments : u.setup.keepComments = false) (hfirst : 0 ≤ u.source.firstLine) :
    (start u table).Spells := by
  have hinitial : Spells { table, journal := { limit := u.setup.maxErrors } } :=
    ⟨fun d hd t ht => (htable d hd t ht).lexed, nofun, nofun⟩
  refine (hinitial.takeLines hcomments fun line hline t ht => ?_).finish hcomments
  have hscan := Source.mem_scan_of_mem_logicalLines hline ht
  exact ⟨Source.lexed_of_mem_scan hscan, Int.le_trans hfirst (Source.line_of_mem_scan hscan).1⟩

end CPreprocessor.Run
