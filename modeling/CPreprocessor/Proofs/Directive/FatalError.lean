import CPreprocessor.Proofs.Directive.DeadRegion
import CPreprocessor.Proofs.Source.LastLine

/-!
# A fatal error ends a run

After an `#error` in live text no line is taken. The next line is still read, though, before the run
is seen to be stopped, so its lexical faults are entered after the fatal error: what follows shows
in the journal exactly if that line has such a fault (`Run.start_append_error`).
-/

namespace CPreprocessor

open Source

namespace Run

variable {u v : SourceUnit} {r : Run} {line : List Scanned} {lines : List (List Scanned)}

/-- The reports of the lexical faults of a line that count where it is live. -/
def faultReports (u : SourceUnit) (line : List Scanned) : List Report :=
  (line.filter fun t => t.fault.isSome && !inMessage u t.token.location).filterMap
    u.source.reportOf?

theorem faultReports_eq_nil_iff :
    faultReports u line = [] ↔ ∀ t ∈ line, t.fault.isSome → inMessage u t.token.location := by
  rw [faultReports, List.filterMap_eq_nil_iff]
  constructor
  · intro h t ht hfault
    cases hmessage : inMessage u t.token.location with
    | true => rfl
    | false =>
      obtain ⟨fault, hfault⟩ := Option.isSome_iff_exists.mp hfault
      have hreport := h t (List.mem_filter.mpr ⟨ht, by rw [hfault, hmessage]; rfl⟩)
      rw [reportOf?, hfault] at hreport
      cases hreport
  · intro h t ht
    obtain ⟨ht, hcounts⟩ := List.mem_filter.mp ht
    obtain ⟨hfault, hmessage⟩ := Bool.and_eq_true_iff.mp hcounts
    rw [h t ht hfault] at hmessage
    cases hmessage

theorem entries_noteFaults (hlive : r.isLive = true) (line : List Scanned) :
    (r.noteFaults u line).journal.entries =
      r.journal.entries ++ (faultReports u line).map (Diagnostic.error · false) := by
  have hrecord : ∀ (reports : List Report) (r : Run),
      (reports.foldl record r).journal.entries =
        r.journal.entries ++ reports.map (Diagnostic.error · false) := by
    intro reports
    induction reports with
    | nil => exact fun r => (List.append_nil _).symm
    | cons report reports ih =>
      intro r
      rw [List.foldl_cons, ih, List.map_cons, List.append_cons]
      rfl
  rw [noteFaults, if_pos hlive]
  exact hrecord _ r

/-- A run that is stopped reads one more line, if there is one. -/
theorem takeLines_stopped (h : r.aborted = true) (lines : List (List Scanned)) :
    takeLines u r lines = r.noteFaults u (lines.headD []) := by
  cases lines with
  | nil =>
    have hnone : r.noteFaults u [] = r := by
      rw [noteFaults]
      split
      · rfl
      · rfl
    exact hnone.symm
  | cons line lines =>
    have haborted : (r.noteFaults u line).aborted = true := by rw [aborted_noteFaults, h]
    rw [takeLines, if_pos haborted]
    rfl

/-- Lines after one that a run takes are taken after it, whether or not it stops the run. -/
theorem takeLines_concat_append (h : (takeLines u r lines).aborted = false) (last : List Scanned)
    (more : List (List Scanned)) :
    takeLines u r (lines ++ [last] ++ more) =
      takeLines u (takeLines u r (lines ++ [last])) more := by
  rw [List.append_assoc, takeLines_append h, takeLines_append h, List.singleton_append,
    takeLines_cons h, takeLines_cons h, takeLines]

/-! ## The line of the error -/

/-- What a line with `#error` does where it is live. -/
theorem take_error {mark name : Token} {rest : List Token} (hlive : r.isLive = true)
    (hform : LineForm.of (line.map Scanned.token) = .directive mark name rest)
    (hname : name.text = "error") :
    (take u r line).aborted = true ∧ (take u r line).isLive = true ∧
      ∃ report, (take u r line).journal.entries.getLast? = some (.error report true) := by
  have hkeyword : Keyword.ofText? name.text = some .error := by
    rw [hname]
    decide
  obtain ⟨-, hframes, -⟩ := flush_spec u (r.noteFaults u line)
  have hflush : ((r.noteFaults u line).flush u).isLive = true := by
    rw [isLive_of_frames hframes, (OnlyNotes.noteFaults r line).frames]
    exact hlive
  rw [take, takeLine, hform]
  simp only [directive, hkeyword, hflush, if_true]
  generalize (r.noteFaults u line).flush u = r' at hflush
  have hcheck : ∀ report, ((r'.abort report).checkJournal).aborted = true ∧
      ((r'.abort report).checkJournal).isLive = true ∧
      ((r'.abort report).checkJournal).journal.entries.getLast? = some (.error report true) := by
    intro report
    have hentries : (r'.abort report).journal.entries.getLast? = some (.error report true) :=
      List.getLast?_concat
    rw [checkJournal]
    split
    · exact ⟨rfl, hflush, hentries⟩
    · exact ⟨rfl, hflush, hentries⟩
  obtain ⟨haborted, hstill, hlast⟩ := hcheck _
  exact ⟨haborted, hstill, _, hlast⟩

/-- Whether the last line of a source is an `#error` that a run reaches in live text. -/
def ReachesError (u : SourceUnit) (table : Table) : Prop :=
  ∃ (lines : List (List Scanned)) (last : List Scanned) (mark name : Token) (rest : List Token),
    u.source.logicalLines = lines ++ [last] ∧
      LineForm.of (last.map Scanned.token) = .directive mark name rest ∧ name.text = "error" ∧
      let before := takeLines u { table, journal := { limit := u.setup.maxErrors } } lines
      before.aborted = false ∧ before.isLive = true

theorem ReachesError.takeLines {table : Table} (h : ReachesError u table) :
    let r := Run.takeLines u { table, journal := { limit := u.setup.maxErrors } }
      u.source.logicalLines
    r.aborted = true ∧ r.isLive = true ∧
      ∃ report, r.journal.entries.getLast? = some (.error report true) := by
  obtain ⟨lines, last, mark, name, rest, hlines, hform, hname, haborted, hlive⟩ := h
  simp only
  rw [hlines, takeLines_append haborted, takeLines_cons haborted, Run.takeLines]
  exact take_error hlive hform hname

theorem finish_of_aborted (h : r.aborted = true) (u : SourceUnit) : r.finish u = r := by
  rw [finish, if_pos h]

end Run

/-! ## What follows -/

/-- Whether a token of a source stands at a place. -/
def Source.TokenAt (s : Source) (location : Location) : Prop :=
  ∃ t ∈ s.scan, t.token.location = location

theorem standAt_tokenAt {s : Source} {line : List Scanned} (hline : line ∈ s.logicalLines) :
    StandAt s.TokenAt (line.map Scanned.token) :=
  standAt_of_scan hline fun t ht => ⟨t, ht, rfl⟩

section
variable {file before : String} {setup : Setup}

/-- A source and the source with more text at its end quote the same at the tokens of the former. -/
theorem agree_append (h : ({ text := before, file } : Source).EndsLine) (setup : Setup)
    (after : String) :
    SourceUnit.Agree ({ text := before, file } : Source).TokenAt
      { source := { text := before ++ after, file }, setup }
      { source := { text := before, file }, setup } where
  setup := rfl
  quote? := by
    rintro _ ⟨t, ht, rfl⟩
    exact congrArg (Option.map String.ofList) (h.quoted rfl ht after).1
  logicalLine := by
    rintro _ ⟨t, ht, rfl⟩
    exact (h.quoted rfl ht after).2
  lineText := by
    rintro _ ⟨t, ht, rfl⟩
    obtain ⟨hfirst, hlast⟩ := line_of_mem_scan ht
    exact Source.lineText_above h.wholeLines hfirst (hlast h.wholeLines) after

/-- The first line of a text that follows a source, in its place. -/
def lineAfter (file before after : String) : List Scanned :=
  (({ text := before, file } : Source).following after).logicalLines.headD []

/-- With text after an `#error` that it reaches, a run only looks at one more line. -/
theorem Run.start_append_eq (hbefore : ({ text := before, file } : Source).EndsLine)
    {table : Table} (herror : ReachesError { source := { text := before, file }, setup } table)
    (after : String) :
    start { source := { text := before ++ after, file }, setup } table =
      (start { source := { text := before, file }, setup } table).noteFaults
        { source := { text := before ++ after, file }, setup } (lineAfter file before after) := by
  obtain ⟨haborted, -, -⟩ := herror.takeLines
  obtain ⟨lines, last, -, -, -, hlines, -, -, hreached, -⟩ := herror
  have hagree := agree_append hbefore setup after
  have hinitial := Stands.initial (P := ({ text := before, file } : Source).TokenAt) table
    { limit := setup.maxErrors }
  have hstand : ∀ line ∈ lines ++ [last],
      StandAt ({ text := before, file } : Source).TokenAt (line.map Scanned.token) := by
    intro line hline
    rw [← hlines] at hline
    exact standAt_tokenAt hline
  have hall : ({ text := before ++ after, file } : Source).logicalLines =
      lines ++ [last] ++ (({ text := before, file } : Source).following after).logicalLines := by
    rw [← hlines]
    exact logicalLines_extend hbefore after
  have hsame := (takeLines_congr hagree hstand hinitial).1
  have hnotAborted := (congrArg Run.aborted (takeLines_congr hagree
    (fun line hline => hstand line (List.mem_append_left _ hline)) hinitial).1).trans hreached
  simp only [start] at haborted ⊢
  rw [hlines] at haborted
  rw [hall, takeLines_concat_append hnotAborted, hsame, takeLines_stopped haborted, hlines,
    finish_of_aborted haborted, finish_of_aborted]
  · rfl
  · rw [aborted_noteFaults, haborted]

/-- Text after an `#error` that is reached changes nothing but the journal, and that only if its
first line has a lexical fault. -/
theorem Run.start_append_error (file before : String) (setup : Setup) (table : Table)
    (hbefore : ({ text := before, file } : Source).EndsLine)
    (herror : ReachesError { source := { text := before, file }, setup } table)
    (after : String) :
    let alone := start { source := { text := before, file }, setup } table
    let longer : SourceUnit := { source := { text := before ++ after, file }, setup }
    (start longer table).effect = alone.effect ∧ (start longer table).aborted = alone.aborted ∧
      alone.aborted = true ∧
      (∃ report, alone.journal.entries.getLast? = some (.error report true)) ∧
      (start longer table).journal.entries = alone.journal.entries ++
        (faultReports longer (lineAfter file before after)).map (Diagnostic.error · false) ∧
      ((start longer table).journal.entries = alone.journal.entries ↔
        ∀ t ∈ lineAfter file before after, t.fault.isSome →
          inMessage longer t.token.location) := by
  intro alone longer
  obtain ⟨haborted, hlive, hlast⟩ := herror.takeLines
  have halone : alone = takeLines { source := { text := before, file }, setup }
      { table, journal := { limit := setup.maxErrors } }
      ({ text := before, file } : Source).logicalLines := finish_of_aborted haborted _
  have hlonger : start longer table = alone.noteFaults longer (lineAfter file before after) :=
    start_append_eq hbefore herror after
  simp only at haborted hlive hlast
  rw [← halone] at haborted hlive hlast
  have hentries := entries_noteFaults (u := longer) hlive (lineAfter file before after)
  rw [hlonger]
  refine ⟨(OnlyNotes.noteFaults ..).effect, aborted_noteFaults _, haborted, hlast, hentries, ?_⟩
  rw [hentries, List.append_right_eq_self, List.map_eq_nil_iff, faultReports_eq_nil_iff]

end

/-- The line `#error x` alone. -/
def singleError (file : String) : Source := { text := "#error x\n", file }

theorem scan_singleError (file : String) :
    (singleError file).scan = (errorTokens file 1).map (⟨·, none⟩) := scan_error file 1

theorem endsLine_singleError (file : String) : (singleError file).EndsLine :=
  endsLine_of_scan (scan_singleError file) rfl rfl

theorem reachesError_singleError (file : String) (setup : Setup) (table : Table) :
    Run.ReachesError { source := singleError file, setup } table := by
  have hform : LineForm.of (((errorTokens file 1).map (⟨·, none⟩)).map Scanned.token) =
      .directive { kind := .punctuator, text := "#", location := ⟨file, 1, 1⟩ }
        { kind := .identifier, text := "error", location := ⟨file, 1, 2⟩ }
        [{ kind := .whitespace, text := " ", location := ⟨file, 1, 7⟩ },
          { kind := .identifier, text := "x", location := ⟨file, 1, 8⟩ }] := by cbv
  refine ⟨[], _, _, _, _, ?_, hform, rfl, rfl, rfl⟩
  rw [Source.logicalLines, scan_singleError]
  rfl

/-- Text without a fault leaves no trace after an `#error`. -/
theorem Run.entries_error_text :
    (start { source := { text := "#error x\n" ++ "y\n" } } ∅).journal.entries.map
      Diagnostic.message = ["#error x"] := by
  have h := start_append_error "<input>" "#error x\n" {} ∅ (endsLine_singleError _)
    (reachesError_singleError ..) "y\n"
  have hline : lineAfter "<input>" "#error x\n" "y\n" =
      [⟨{ kind := .identifier, text := "y", location := ⟨"<input>", 2, 1⟩ }, none⟩,
        ⟨{ kind := .newline, text := "\n", location := ⟨"<input>", 2, 2⟩ }, none⟩] := by cbv
  rw [h.2.2.2.2.2.mpr (by rw [hline]; decide)]
  decide +kernel

/-- A quotation mark without a second one in the line after an `#error` is reported. -/
theorem Run.entries_error_quote :
    (singleError "<input>").EndsLine ∧ ReachesError { source := singleError "<input>" } ∅ ∧
      (start { source := { text := "#error x\n" } } ∅).journal.entries.map Diagnostic.message =
        ["#error x"] ∧
      (start { source := { text := "#error x\n" ++ "'\n" } } ∅).journal.entries.map
        Diagnostic.message = ["#error x", "unterminated character constant"] := by
  refine ⟨endsLine_singleError _, reachesError_singleError .., ?_, ?_⟩
  · decide +kernel
  · decide +kernel

end CPreprocessor
