import CPreprocessor.Proofs.Directive.Composition
import CPreprocessor.Proofs.Directive.Entries

/-!
# Live text

Text lines wait in a run till the next line that is none, and are then expanded together. A run that
gets to the end of its source expands what waits there, but one that is stopped does not: if it is the
fault of a text line that fills the journal, the lines that wait are lost (`Run.liveText_accounted`).
-/

namespace CPreprocessor

/-! ## Passages -/

/-- Text lines that are expanded together, with the macros as they are then. -/
structure Passage where
  table : Table
  lines : List (List Token)

namespace Passage

variable {u : SourceUnit}

/-- The tokens that a passage puts out. -/
def tokens (u : SourceUnit) (p : Passage) : List Token :=
  (Effect.expansion u p.table p.lines).map (Run.outputToken u.setup.keepComments)

/-- The errors that a passage gives. -/
def failures (u : SourceUnit) (p : Passage) : List Diagnostic := Run.failures u p.table p.lines

/-- What becomes of the lines of a passage: they are expanded together, or one by one, and then there is
an error for each line that cannot be expanded. -/
inductive Outcome (u : SourceUnit) (p : Passage) : List Token → List Diagnostic → Prop
  | together {expansion : Expander.Expansion} :
    (u.expander p.table).expand p.lines.flatten = .ok expansion →
      Outcome u p (expansion.tokens.map (Run.outputToken u.setup.keepComments)) []
  | apart {error : ExpansionError} :
    (u.expander p.table).expand p.lines.flatten = .error error →
      Outcome u p
        ((p.lines.flatMap (Run.lineTokens (u.expander p.table))).map
          (Run.outputToken u.setup.keepComments))
        (p.lines.filterMap (Run.lineError? u p.table))

theorem outcome (u : SourceUnit) (p : Passage) : p.Outcome u (p.tokens u) (p.failures u) := by
  unfold tokens failures Effect.expansion Run.failures
  cases h : (u.expander p.table).expand p.lines.flatten with
  | ok expansion => exact .together h
  | error error => exact .apart h

end Passage

namespace Run

variable {u : SourceUnit} {table : Table} {r : Run} {s : Step}

/-! ## Steps -/

theorem output_directive (u : SourceUnit) (r : Run) (mark name : Token) (rest : List Token) :
    (r.directive u mark name rest).output = r.output := by
  by_cases h : ∃ c, Keyword.ofText? name.text = some (.conditional c)
  · obtain ⟨c, hc⟩ := h
    simp only [directive, hc]
    exact (Keeps.conditional u r c).output
  · have heffect := (directive_spec u r mark rest (not_exists.mp h)).1
    refine (congrArg Effect.output heffect).trans ?_
    split
    · split
      · rfl
      · rfl
      · rfl
    · rfl

/-- A line that is none of text puts out what waits. -/
theorem output_take {line : List Scanned} (h : LineForm.of (line.map Scanned.token) ≠ .text) :
    (take u r line).output = r.output ++ Passage.tokens u ⟨r.table, r.pending⟩ := by
  obtain ⟨r', hbefore, hafter⟩ := take_spec (u := u) (r := r) line
  have hflush : (r'.flush u).output = r.output ++ Passage.tokens u ⟨r.table, r.pending⟩ := by
    rw [← hbefore.pending, show r.output = r'.output from congrArg Effect.output hbefore.effect.symm,
      show r.table = r'.table from congrArg Effect.table hbefore.effect.symm]
    exact congrArg Effect.output (flush_spec u r').1
  rw [show (take u r line).output = _ from congrArg Effect.output hafter.effect, ← hflush]
  change (r'.takeLine u (line.map Scanned.token)).output = _
  rw [takeLine]
  cases hform : LineForm.of (line.map Scanned.token) with
  | text => exact absurd hform h
  | nothing => rfl
  | invalid mark name =>
    simp only
    split
    · rfl
    · rfl
  | directive mark name rest => exact output_directive ..

namespace Step

/-- The text that a step has expanded. -/
def passages (s : Step) : List Passage :=
  if s.form = .text then [] else [⟨s.before.table, s.before.pending⟩]

/-- The line of a step if it is live text. -/
def liveText (s : Step) : List (List Token) :=
  if s.form = .text ∧ s.before.isLive = true then [s.line.map Scanned.token] else []

theorem output_after (u : SourceUnit) (s : Step) :
    (s.after u).output = s.before.output ++ s.passages.flatMap (Passage.tokens u) := by
  by_cases h : s.form = .text
  · rw [passages, if_pos h, List.flatMap_nil, List.append_nil]
    exact congrArg Effect.output (take_text (u := u) h).1
  · rw [passages, if_neg h, List.flatMap_singleton]
    exact output_take h

theorem failures_eq (u : SourceUnit) (s : Step) :
    s.failures u = s.passages.flatMap (Passage.failures u) := by
  rw [failures, passages]
  split
  · rfl
  · rw [List.flatMap_singleton]
    rfl

/-- What waits after a step: its line, if it is live text, and what waited before it, if it is text. -/
theorem pending_after (u : SourceUnit) (s : Step) :
    (s.after u).pending = (if s.form = .text then s.before.pending else []) ++ s.liveText := by
  by_cases h : s.form = .text
  · rw [after, (take_text (u := u) (r := s.before) h).2.2, liveText, if_pos h]
    cases s.before.isLive with
    | true => rw [if_pos rfl, if_pos ⟨h, rfl⟩]
    | false =>
      rw [if_neg Bool.false_ne_true, if_neg fun hlive => Bool.false_ne_true hlive.2, List.append_nil]
  · rw [after, pending_take h, liveText, if_neg h, if_neg fun hlive => h hlive.1, List.append_nil]

/-- Text that waits before a step and the line of the step are expanded by it or wait after it. -/
theorem pending_append_liveText (u : SourceUnit) (s : Step) :
    s.before.pending ++ s.liveText = s.passages.flatMap Passage.lines ++ (s.after u).pending := by
  rw [pending_after, ← List.append_assoc, passages]
  split
  · rfl
  · rw [List.flatMap_singleton, List.append_nil]

end Step

end Run

namespace SourceUnit

/-- The live text before the line that a run is stopped at. -/
def liveText (u : SourceUnit) (table : Table) : List (List Token) :=
  (if (u.reached table).aborted then (u.steps table).dropLast else u.steps table).flatMap
    Run.Step.liveText

/-- The text that a run expands. -/
def passages (u : SourceUnit) (table : Table) : List Passage :=
  (u.steps table).flatMap Run.Step.passages ++
    if (u.reached table).aborted then [] else [⟨(u.reached table).table, (u.reached table).pending⟩]

/-- The text that waits when a run is stopped at a text line. -/
def lost (u : SourceUnit) (table : Table) : List (List Token) :=
  match u.stop? table with
  | some s => if s.form = .text then s.before.pending else []
  | none => []

end SourceUnit

namespace Run

variable {u : SourceUnit} {table : Table}

theorem output_start_eq (u : SourceUnit) (table : Table) :
    (start u table).output = (u.passages table).flatMap (Passage.tokens u) := by
  have hreached : (u.reached table).output =
      ((u.steps table).flatMap Step.passages).flatMap (Passage.tokens u) := by
    rw [List.flatMap_assoc]
    exact append_steps (f := Run.output) (Step.output_after u) (initial u table)
      u.source.logicalLines
  rw [start_eq, SourceUnit.passages, List.flatMap_append, ← hreached]
  cases haborted : (u.reached table).aborted with
  | true =>
    rw [if_pos rfl, if_pos rfl, List.flatMap_nil, List.append_nil]
    exact congrArg Effect.output (OnlyNotes.noteFaults ..).effect
  | false =>
    have hflush := congrArg Effect.output (flush_spec u (u.reached table)).1
    rw [if_neg Bool.false_ne_true, if_neg Bool.false_ne_true, List.flatMap_singleton, finish,
      if_neg (by rw [haborted]; exact Bool.false_ne_true)]
    simp only
    split
    · exact hflush
    · exact hflush

theorem failures_sublist (u : SourceUnit) (table : Table) :
    ((u.passages table).flatMap (Passage.failures u)).Sublist (start u table).journal.entries := by
  have hsteps : (((u.steps table).flatMap Step.passages).flatMap (Passage.failures u)).Sublist
      (u.reached table).journal.entries := by
    rw [entries_reached, List.flatMap_assoc]
    refine List.Sublist.flatMap_right _ fun s _ => ?_
    obtain ⟨told, hentered, -⟩ := s.exists_entered u
    rw [← Step.failures_eq, hentered, List.append_assoc]
    exact (List.sublist_append_left ..).trans (List.sublist_append_right ..)
  rw [start_eq, SourceUnit.passages, List.flatMap_append]
  cases haborted : (u.reached table).aborted with
  | true =>
    rw [if_pos rfl, if_pos rfl, List.flatMap_nil, List.append_nil, entries_noteFaults_eq]
    exact hsteps.trans (List.sublist_append_left ..)
  | false =>
    rw [if_neg Bool.false_ne_true, if_neg Bool.false_ne_true, (entries_finish u haborted).1,
      List.flatMap_singleton]
    exact hsteps.append (List.sublist_append_left ..)

/-- Live text before the end of a run is expanded or lost. -/
theorem liveText_eq (u : SourceUnit) (table : Table) :
    u.liveText table = (u.passages table).flatMap Passage.lines ++ u.lost table := by
  have hsteps : (u.steps table).flatMap Step.liveText =
      ((u.steps table).flatMap Step.passages).flatMap Passage.lines ++ (u.reached table).pending := by
    rw [List.flatMap_assoc]
    exact hand_on (f := Run.pending) (Step.pending_append_liveText u) (initial u table)
      u.source.logicalLines
  obtain ⟨front, s, hstop, haborted, hsplit, hreached⟩ | ⟨hstop, haborted⟩ := stop?_cases u table
  · rw [hsplit, hreached, List.flatMap_append, List.flatMap_singleton, Step.pending_after,
      ← List.append_assoc] at hsteps
    have hfront := List.append_cancel_right hsteps
    rw [SourceUnit.liveText, SourceUnit.passages, SourceUnit.lost, hstop, haborted, if_pos rfl,
      if_pos rfl, List.append_nil, hsplit, List.dropLast_concat]
    exact hfront
  · rw [SourceUnit.liveText, SourceUnit.passages, SourceUnit.lost, hstop, haborted,
      if_neg Bool.false_ne_true, if_neg Bool.false_ne_true, hsteps, List.flatMap_append,
      List.flatMap_singleton]
    simp

/-- A text line stops a run only if its faults fill the journal. -/
theorem Step.isFull_of_text {s : Step} (htext : s.form = .text) (hbefore : s.before.aborted = false)
    (hafter : (s.after u).aborted = true) : (s.after u).journal.isFull = true := by
  have hkept : ((s.before.noteFaults u s.line).takeLine u (s.line.map Scanned.token)).aborted = false := by
    refine Eq.trans ?_ ((aborted_noteFaults (u := u) s.line).trans hbefore)
    rw [takeLine, show LineForm.of (s.line.map Scanned.token) = .text from htext]
    simp only
    split
    · rfl
    · rfl
  obtain ⟨hjournal, haborted⟩ := checkJournal_spec
    ((s.before.noteFaults u s.line).takeLine u (s.line.map Scanned.token))
  rw [hkept, Bool.false_or] at haborted
  rw [after, take] at hafter ⊢
  rw [hjournal, ← haborted, hafter]

/-- Text is lost only where the lexical faults of a text line fill the journal. -/
theorem exists_of_lost (h : u.lost table ≠ []) :
    ∃ s, u.stop? table = some s ∧ s.form = .text ∧ s.faults u ≠ [] ∧
      (s.after u).journal.isFull = true := by
  obtain ⟨front, s, hstop, haborted, hsplit, hreached⟩ | ⟨hstop, -⟩ := stop?_cases u table
  swap
  · rw [SourceUnit.lost, hstop] at h
    exact absurd rfl h
  rw [SourceUnit.lost, hstop] at h
  simp only at h
  split at h
  swap
  · exact absurd rfl h
  rename_i htext
  have hmem : s ∈ u.steps table := by
    rw [hsplit]
    exact List.mem_append_right _ (List.mem_singleton_self s)
  obtain ⟨-, -, -, -, hbefore⟩ := exists_of_mem_steps hmem
  rw [hreached] at haborted
  have hfull := Step.isFull_of_text htext hbefore haborted
  refine ⟨s, hstop, htext, fun hnone => ?_, hfull⟩
  rcases isFull_of_mem_steps hmem with hinitial | hnot
  · rw [hinitial] at h
    exact absurd rfl h
  · -- without a fault the step enters nothing
    obtain ⟨told, hentered, -, -, htold⟩ := s.exists_entered u
    rw [hnone, htold htext, Step.failures, if_pos htext] at hentered
    have hentries := s.entries_after u
    rw [hentered, List.append_nil, List.append_nil, List.append_nil] at hentries
    have hsame := Journal.isFull_of_le hfull (s.limit_after u).symm
      (Nat.le_of_eq (congrArg (List.length ∘ List.filter Diagnostic.isError) hentries))
    rw [hnot] at hsame
    cases hsame

/-- What a run puts out is the expansion of passages of live text, and the errors of their expansion
are in its journal. The passages are all live text before the line that the run is stopped at, except
for what is lost: if a run is stopped at a text line, then by a lexical fault that fills its journal,
and the lines that wait are never expanded. -/
theorem liveText_accounted (u : SourceUnit) (table : Table) :
    (start u table).output = (u.passages table).flatMap (Passage.tokens u) ∧
      ((u.passages table).flatMap (Passage.failures u)).Sublist (start u table).journal.entries ∧
      (∀ p ∈ u.passages table, p.Outcome u (p.tokens u) (p.failures u)) ∧
      u.liveText table = (u.passages table).flatMap Passage.lines ++ u.lost table ∧
      (u.lost table ≠ [] → ∃ s, u.stop? table = some s ∧ s.form = .text ∧ s.faults u ≠ [] ∧
        (s.after u).journal.isFull = true) ∧
      (u.liveText table = (u.passages table).flatMap Passage.lines ↔ u.lost table = []) := by
  refine ⟨output_start_eq u table, failures_sublist u table, fun p _ => p.outcome u,
    liveText_eq u table, exists_of_lost, ?_⟩
  rw [liveText_eq, List.append_right_eq_self]

/-- The line `a` waits when the fault of the line `b '` stops the run, and nothing is put out. -/
theorem liveText_lost :
    let u : SourceUnit := { source := { text := "a\nb '\n" }, setup := { maxErrors := 1 } }
    (start u ∅).aborted = true ∧ (u.liveText ∅).map (·.map Token.text) = [["a", "\n"]] ∧
      (start u ∅).output = [] ∧
      (start u ∅).journal.entries.map Diagnostic.message = ["unterminated character constant"] := by
  decide +kernel

end Run

end CPreprocessor
