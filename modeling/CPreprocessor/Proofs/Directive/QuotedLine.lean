import CPreprocessor.Proofs.Condition.Acceptance
import CPreprocessor.Proofs.Condition.FaultPlace
import CPreprocessor.Proofs.Directive.Entries
import CPreprocessor.Proofs.Source.CountedLine
import CPreprocessor.Proofs.Source.Position

/-!
# The line that an error quotes

An error that is no lexical one quotes a line of the listing: the one whose number is that of its place,
unless it is an error of a directive that goes on over several lines, which quotes the line of the `#`
(`Run.cites_start`). That line is the text between two newlines exactly if lines are counted alike above
it and no boundary is in it (`Run.quoted_line`).
-/

namespace CPreprocessor

open Source

variable {u : SourceUnit} {mark : Token} {operands : List Token} {report : Report}

/-! ## The tokens of a directive -/

theorem LineForm.parts_sublist (line : List Token) : (LineForm.of line).parts.Sublist line := by
  have hlead := List.dropWhile_sublist (l := line) fun t => t.kind = .whitespace || t.kind = .comment
  unfold LineForm.of
  split
  · exact List.nil_sublist _
  · rename_i mark afterMark hmark
    rw [hmark] at hlead
    have hgap : (skipLayout afterMark).Sublist afterMark := List.dropWhile_sublist _
    split
    · split
      · exact List.nil_sublist _
      · rename_i name rest hname
        rw [hname] at hgap
        have hparts := (hgap.cons_cons mark).trans hlead
        split
        · exact ((List.filter_sublist.cons_cons name).cons_cons mark).trans hparts
        split
        · exact List.nil_sublist _
        · exact ((List.nil_sublist rest).cons_cons name |>.cons_cons mark).trans hparts
    · exact List.nil_sublist _

namespace Source

variable {s : Source} {line : List Scanned}

/-- Whether line `below` is a later line of a directive with its `#` in line `number`. -/
def Continues (s : Source) (number below : Int) : Prop :=
  number < below ∧ ∃ line ∈ s.logicalLines, ∃ mark operands,
    (LineForm.of (line.map Scanned.token)).parts = mark :: operands ∧
      mark.location.line = number ∧ ∃ t ∈ operands, t.location.line = below

/-- The tokens of a source go down its lines. -/
theorem pairwise_line_scan (s : Source) :
    (s.scan.map Scanned.token).Pairwise fun t t' => t.location.line ≤ t'.location.line := by
  have hplaces : (s.places.map s.locate).Pairwise fun l l' => l.line ≤ l'.line := by
    rw [List.pairwise_map]
    refine (pairwise_places ⟨s.firstLine, 1⟩ s.text.toList).2.imp fun {p q} hbefore => ?_
    exact hbefore.elim Int.le_of_lt fun h => Int.le_of_eq h.1
  have hsublist : (s.scan.map fun t => t.token.location).Sublist (s.places.map s.locate) :=
    s.sublist_settle (fun l hl => text_ne_nil hl) s.places
  have htokens := hplaces.sublist hsublist
  rw [List.pairwise_map] at htokens ⊢
  exact htokens

/-- What belongs to a directive stands in the line of its `#` or further down. -/
theorem line_le_of_parts (hline : line ∈ s.logicalLines)
    (h : (LineForm.of (line.map Scanned.token)).parts = mark :: operands) :
    ∀ t ∈ operands, mark.location.line ≤ t.location.line := by
  have hsublist : (line.map Scanned.token).Sublist (s.scan.map Scanned.token) := by
    rw [← flatten_logicalLines]
    exact (List.sublist_flatten_of_mem hline).map _
  have hparts := s.pairwise_line_scan.sublist ((LineForm.parts_sublist _).trans hsublist)
  rw [h] at hparts
  exact fun t ht => List.rel_of_pairwise_cons hparts ht

/-- A token of a directive is in the line of its `#`, or that directive goes on to its line. -/
theorem line_eq_or_continues (hline : line ∈ s.logicalLines)
    (h : (LineForm.of (line.map Scanned.token)).parts = mark :: operands) {t : Token}
    (ht : t ∈ mark :: operands) :
    mark.location.line = t.location.line ∨ s.Continues mark.location.line t.location.line := by
  rcases List.mem_cons.mp ht with rfl | ht
  · exact .inl rfl
  · rcases Int.lt_or_eq_of_le (line_le_of_parts hline h t ht) with hlt | heq
    · exact .inr ⟨hlt, line, hline, mark, operands, h, rfl, t, ht, rfl⟩
    · exact .inl heq

end Source

/-! ## What an error quotes -/

/-- An error in a condition quotes nothing, or the line of its place, or else the line of the directive, and
then it is one of the evaluation, at a place with any property of lines that the tokens have. -/
theorem SourceUnit.sourceLine_of_evaluate {P : Location → Prop} {table : Table} {rest : List Token}
    {site : Location} (hcolumn : ∀ location column, P location → P { location with column })
    (hsite : P site) (hrest : StandAt P rest) (h : (u.evaluate table rest site).1 = .error report) :
    report.sourceLine = none ∨ report.sourceLine = report.location.bind u.quote? ∨
      report.sourceLine = u.quote? site ∧ .expression ∈ report.category.ancestry ∧
        ∀ place ∈ report.location, P place := by
  unfold SourceUnit.evaluate at h
  split at h
  · obtain rfl := Except.error.inj h
    exact .inl (ite_self none)
  · rename_i resolved hresolve
    have horigin := (u.expander table).expand_origin (Defined.standAt_resolve hresolve hrest)
    split at h
    · obtain rfl := Except.error.inj h
      exact .inr (.inl rfl)
    · rename_i expansion hexpand
      rw [hexpand] at horigin
      simp only at h
      cases hresult : (CPreprocessor.evaluate _ _).result with
      | ok value =>
        rw [hresult] at h
        cases h
      | error fault =>
        rw [hresult] at h
        obtain rfl := Except.error.inj h
        by_cases hown : fault.cause.category.isOwn = true
        · refine .inr (.inr ⟨if_pos hown, ConditionFault.expression_mem_ancestry hown, ?_⟩)
          rw [show (ConditionFault.report fault _).location = fault.location from if_pos hown]
          refine location_evaluate hcolumn ?_ horigin hresult
          rintro _ ⟨⟩
          exact hsite
        · exact .inl (if_neg hown)

namespace Run

variable {table : Table} {fatal : Bool}

/-- Whether an error of a directive, or of the condition in it, is in a later line than the `#`, which is in
line `number`. -/
def Continued (u : SourceUnit) (report : Report) (place : Location) (number : Int) : Prop :=
  (report.category = .directive ∨ .expression ∈ report.category.ancestry) ∧
    u.source.Continues number place.line

/-- Whether what an error quotes is the line that it is in: by newlines if it is a lexical error, and in the
listing otherwise, where it may be the line of the directive that goes on to it. -/
def Cites (u : SourceUnit) (report : Report) : Prop :=
  ∀ place ∈ report.location, ∀ quoted ∈ report.sourceLine,
    report.category = .lexical ∧ quoted = u.source.lineText place.line ∨
      report.category ≠ .lexical ∧ ∃ number,
        (number = place.line ∨ Continued u report place number) ∧
          u.listing.line? number = some quoted.toList

namespace Cites

/-- An error that quotes the line of a place with its number, or with one of a line that goes on to it. -/
theorem of_quote? (site : Location) (hcategory : report.category ≠ .lexical)
    (hquote : report.sourceLine = u.quote? site)
    (hsite : ∀ place ∈ report.location,
      site.line = place.line ∨ Continued u report place site.line) : Cites u report := by
  intro place hplace quoted hquoted
  rw [hquote] at hquoted
  obtain ⟨line, hline, rfl⟩ := Option.map_eq_some_iff.mp hquoted
  exact .inr ⟨hcategory, site.line, hsite place hplace, by rw [hline, String.toList_ofList]⟩

theorem of_bind (hcategory : report.category ≠ .lexical)
    (hquote : report.sourceLine = report.location.bind u.quote?) : Cites u report := by
  intro place hplace
  refine of_quote? place hcategory ?_ (fun place' hplace' => ?_) place hplace
  · rw [hquote, hplace, Option.bind_some]
  · rw [Option.mem_def.mp hplace] at hplace'
    exact .inl (congrArg Location.line (Option.some.inj hplace'))

theorem of_faults {r : Run} {line : List Scanned} (h : .error report fatal ∈ r.faults u line) :
    Cites u report := by
  unfold faults at h
  split at h
  · obtain ⟨report', hreport, heq⟩ := List.mem_map.mp h
    cases heq
    obtain ⟨t, -, ht⟩ := List.mem_filterMap.mp hreport
    obtain ⟨fault, -, rfl⟩ := Option.map_eq_some_iff.mp ht
    rintro _ ⟨⟩ _ ⟨⟩
    exact .inl ⟨rfl, rfl⟩
  · exact absurd h List.not_mem_nil

theorem of_failures {lines : List (List Token)} (h : .error report fatal ∈ failures u table lines) :
    Cites u report := by
  unfold failures at h
  split at h
  · exact absurd h List.not_mem_nil
  · obtain ⟨line, -, hline⟩ := List.mem_filterMap.mp h
    unfold lineError? at hline
    split at hline
    · cases hline
    · cases hline
      exact of_bind (ExpansionFault.category_ne_lexical _) rfl

theorem of_complaint {line : List Scanned} (hline : line ∈ u.source.logicalLines)
    (hparts : (LineForm.of (line.map Scanned.token)).parts = mark :: operands)
    (h : Complaint u mark operands report) : Cites u report := by
  have hcategory := h.category_ne_lexical
  cases h with
  | directive fault => exact of_bind hcategory rfl
  | operand hfault ht =>
    refine of_quote? mark.location hcategory rfl ?_
    rintro _ ⟨⟩
    exact (line_eq_or_continues hline hparts (List.mem_cons_of_mem mark ht)).imp_right
      fun hcontinues => ⟨.inl hfault, hcontinues⟩
  | definition fault => exact fun _ _ _ hquoted => nomatch hquoted
  | condition hrest h =>
    have hsource := SourceUnit.sourceLine_of_evaluate (P := fun location => ∃ t ∈ mark :: operands,
      t.location.line = location.line) (fun _ _ h => h) ⟨mark, List.mem_cons_self, rfl⟩
      (fun t ht => ⟨t, List.mem_cons_of_mem mark (hrest t ht), rfl⟩) h
    obtain hnone | hown | ⟨hmark, hexpression, hplace⟩ := hsource
    · intro place _ quoted hquoted
      rw [hnone] at hquoted
      cases hquoted
    · exact of_bind hcategory hown
    · refine of_quote? mark.location hcategory hmark fun place hmem => ?_
      obtain ⟨t, ht, hline'⟩ := hplace place hmem
      exact (hline' ▸ line_eq_or_continues hline hparts ht).imp_right
        fun hcontinues => ⟨.inr hexpression, hcontinues⟩

theorem of_unterminated {frames : List Frame} (h : .error report fatal ∈ unterminated u frames) :
    Cites u report := by
  cases frames with
  | nil => exact absurd h List.not_mem_nil
  | cons frame outer =>
    cases List.mem_singleton.mp h
    exact of_bind (by rintro ⟨⟩) rfl

end Cites

/-- Every error of a run cites its line. -/
theorem cites_start (h : .error report fatal ∈ (start u table).journal.entries) : Cites u report := by
  have hreached : .error report fatal ∈ (u.reached table).journal.entries → Cites u report := by
    rw [entries_reached, List.mem_flatMap]
    rintro ⟨s, hs, hmem⟩
    obtain ⟨told, hentered, -, htold, -⟩ := s.exists_entered u
    rw [hentered, List.mem_append, List.mem_append] at hmem
    obtain (hfault | hfailure) | hmem := hmem
    · exact .of_faults hfault
    · rw [Step.failures] at hfailure
      split at hfailure
      · exact absurd hfailure List.not_mem_nil
      · exact .of_failures hfailure
    · obtain ⟨mark, operands, hparts, hcomplaint⟩ := htold report fatal hmem
      exact .of_complaint ((prefix_map_line u table).subset (List.mem_map_of_mem hs)) hparts hcomplaint
  rw [start_eq] at h
  cases haborted : (u.reached table).aborted with
  | true =>
    rw [haborted, if_pos rfl, entries_noteFaults_eq, List.mem_append] at h
    exact h.elim hreached .of_faults
  | false =>
    rw [haborted, if_neg Bool.false_ne_true, (entries_finish u haborted).1, List.mem_append,
      List.mem_append] at h
    exact h.elim hreached fun h => h.elim .of_failures .of_unterminated

/-- An error quotes the text between two newlines around its place, if no directive goes on to its line,
lines are counted alike above it, and there is no boundary in it. A lexical error always does; any other
one quotes a line with its number, or with that of the `#` of a directive that goes on to it, and that is
the text between two newlines exactly if no boundary is in it, where lines are counted alike above. -/
theorem quoted_line (hfirst : u.source.firstLine = 1)
    (h : .error report fatal ∈ (start u table).journal.entries) {place : Location} {quoted : String}
    (hplace : report.location = some place) (hquoted : report.sourceLine = some quoted) :
    ((¬ ∃ number, Continued u report place number) → u.source.CountedAbove place.line →
        Text.Unbroken (u.source.lineText place.line).toList →
        quoted = u.source.lineText place.line) ∧
      (report.category = .lexical → quoted = u.source.lineText place.line) ∧
      (report.category ≠ .lexical → ∃ number,
        (number = place.line ∨ Continued u report place number) ∧
          u.listing.line? number = some quoted.toList ∧
          (u.source.CountedAbove number →
            (quoted = u.source.lineText number ↔
              Text.Unbroken (u.source.lineText number).toList))) := by
  rcases cites_start h place hplace quoted hquoted with
    ⟨hlexical, hline⟩ | ⟨hcategory, number, hnumber, hline⟩
  · exact ⟨fun _ _ _ => hline, fun _ => hline, fun hcategory => absurd hlexical hcategory⟩
  · refine ⟨fun hnone hcounted hboundary => ?_, fun hlexical => absurd hlexical hcategory,
      fun _ => ⟨number, hnumber, hline, fun hcounted => line?_eq_lineText_iff hfirst hcounted hline⟩⟩
    obtain rfl := hnumber.resolve_right fun hcontinues => hnone ⟨number, hcontinues⟩
    exact (line?_eq_lineText_iff hfirst hcounted hline).mpr hboundary

/-- An `#endif` without an `#if`. -/
def strayEndif : SourceUnit := { source := { text := "#ident\r\n#endif\r\n" } }

/-- Its line is quoted without the carriage return. -/
theorem quoted_line_strayEndif :
    let report := DirectiveFault.report ⟨.unmatchedEndif, some ⟨"<input>", 2, 1⟩⟩ (some "#endif")
    strayEndif.source.firstLine = 1 ∧
      .error report false ∈ (start strayEndif ∅).journal.entries ∧
      report.location = some ⟨"<input>", 2, 1⟩ ∧ report.sourceLine = some "#endif" ∧
      "#endif" = strayEndif.source.lineText 2 := by
  intro report
  have herror : .error report false ∈ (start strayEndif ∅).journal.entries := by decide +kernel
  have hline : strayEndif.source.lineText 2 = "#endif" := by decide +kernel
  have hnone : ¬ ∃ number, Continued strayEndif report ⟨"<input>", 2, 1⟩ number :=
    fun ⟨_, hcategory, _⟩ => absurd hcategory (by decide)
  have hcounted : strayEndif.source.CountedAbove 2 :=
    ⟨"#ident\r".toList ++ ['\n'], "#endif\r\n".toList, by decide +kernel, .concat _,
      by decide +kernel, by decide +kernel⟩
  refine ⟨rfl, herror, rfl, rfl, (quoted_line rfl herror rfl rfl).1 hnone hcounted ?_⟩
  rw [hline]
  decide

/-- A line is quoted that is not the one of the place: the first line of a directive for an error in its
second one, and the end of the line above where there is a form feed in it. -/
theorem quoted_line_other :
    (∃ report, .error report false ∈ (start { source := { text := "#undef \\\n 1\n" } } ∅).journal.entries ∧
      report.location = some ⟨"<input>", 2, 2⟩ ∧ report.sourceLine = some "#undef \\" ∧
      ({ text := "#undef \\\n 1\n" } : Source).lineText 2 = " 1") ∧
    ∃ report, .error report false ∈
        (start { source := { text := "#pragma x\x0c\n#endif\n" } } ∅).journal.entries ∧
      report.location = some ⟨"<input>", 2, 1⟩ ∧ report.sourceLine = some "" ∧
      ({ text := "#pragma x\x0c\n#endif\n" } : Source).lineText 2 = "#endif" :=
  ⟨⟨DirectiveFault.report ⟨.nameNotIdentifier, some ⟨"<input>", 2, 2⟩⟩ (some "#undef \\"),
      by decide +kernel, rfl, rfl, by decide +kernel⟩,
    ⟨DirectiveFault.report ⟨.unmatchedEndif, some ⟨"<input>", 2, 1⟩⟩ (some ""),
      by decide +kernel, rfl, rfl, by decide +kernel⟩⟩

/-! ## Lines that are not counted alike -/

/-- The line `#` with a name. -/
def namedLine (file : String) (line : Int) (name : String) : List Scanned :=
  [{ token := { kind := .punctuator, text := "#", location := ⟨file, line, 1⟩ } },
   { token := { kind := .identifier, text := name, location := ⟨file, line, 2⟩ } },
   { token := { kind := .newline, text := "\n", location := ⟨file, line, 3⟩ } }]

/-- An unknown name is reported, with the line of the `#` that the listing has. -/
theorem error_namedLine {r : Run} (hlive : r.isLive = true) {name : String}
    (hname : Keyword.ofText? name = none) (file : String) (line : Int) :
    .error (DirectiveFault.report ⟨.unknown name, some ⟨file, line, 2⟩⟩ (u.quote? ⟨file, line, 1⟩))
      false ∈ (take u r (namedLine file line name)).journal.entries := by
  have hnote : r.noteFaults u (namedLine file line name) = r := by
    rw [noteFaults, hlive]
    rfl
  have hform : LineForm.of ((namedLine file line name).map Scanned.token) =
      .directive { kind := .punctuator, text := "#", location := ⟨file, line, 1⟩ }
        { kind := .identifier, text := name, location := ⟨file, line, 2⟩ } [] := rfl
  have hflush : (r.flush u).isLive = true := by
    obtain ⟨-, hframes, -⟩ := flush_spec u r
    rw [isLive_of_frames hframes]
    exact hlive
  rw [take, (checkJournal_spec _).1, hnote, takeLine, hform]
  simp only [directive, hname, hflush, if_true]
  exact List.mem_append_right _ (List.mem_singleton_self _)

theorem logicalLines_named {name : String} (hname : name = "x" ∨ name = "y") (file : String)
    (line : Int) :
    ({ text := "#" ++ name ++ "\n", file, firstLine := line } : Source).logicalLines =
      [namedLine file line name] := by
  rcases hname with rfl | rfl
  · cbv
  · cbv

/-- The line `#` with one of two names is reported behind a source that a live run gets through. -/
theorem error_append {file before : String} {setup : Setup} {name : String}
    (hname : name = "x" ∨ name = "y") (hends : ({ text := before, file } : Source).EndsLine)
    (haborted : (takeLines { source := { text := before, file }, setup }
      (initial { source := { text := before, file }, setup } table)
      ({ text := before, file } : Source).logicalLines).aborted = false)
    (hlive : (takeLines { source := { text := before, file }, setup }
      (initial { source := { text := before, file }, setup } table)
      ({ text := before, file } : Source).logicalLines).isLive = true) :
    let whole : SourceUnit := { source := { text := before ++ ("#" ++ name ++ "\n"), file }, setup }
    let number : Int := 1 + before.toList.count '\n'
    .error (DirectiveFault.report ⟨.unknown name, some ⟨file, number, 2⟩⟩
      (whole.quote? ⟨file, number, 1⟩)) false ∈ (start whole table).journal.entries := by
  intro whole number
  have hsame : takeLines whole (initial whole table)
      ({ text := before, file } : Source).logicalLines = _ :=
    (takeLines_congr (agree_append hends setup _) (fun line hline => standAt_tokenAt hline)
      (.initial table { limit := setup.maxErrors })).1
  have hsplit : whole.source.logicalLines =
      ({ text := before, file } : Source).logicalLines ++ [namedLine file number name] :=
    (logicalLines_extend hends _).trans (congrArg _ (logicalLines_named hname file number))
  have hkeyword : Keyword.ofText? name = none := by rcases hname with rfl | rfl <;> decide
  rw [show start whole table =
      (takeLines whole (initial whole table) whole.source.logicalLines).finish whole from rfl,
    hsplit, takeLines_append (hsame ▸ haborted), takeLines_cons (hsame ▸ haborted), takeLines, hsame]
  exact (Extends.finish _).entries.subset (error_namedLine hlive hkeyword file number)

/-- With more line boundaries than newlines above, there is a line whose error quotes another one. -/
theorem exists_misquoted (u : SourceUnit) (table : Table) (hfirst : u.source.firstLine = 1)
    (hends : u.source.EndsLine)
    (hlines : u.source.newlines < (Text.boundaryLines u.source.text.toList).length)
    (haborted : (takeLines u (initial u table) u.source.logicalLines).aborted = false)
    (hlive : (takeLines u (initial u table) u.source.logicalLines).isLive = true) :
    ∃ after report place quoted,
      .error report false ∈
        (start { u with source := u.source.extend after } table).journal.entries ∧
      report.location = some place ∧ report.sourceLine = some quoted ∧
      quoted ≠ (u.source.extend after).lineText place.line := by
  obtain ⟨⟨before, file, firstLine⟩, setup⟩ := u
  obtain rfl : firstLine = 1 := hfirst
  obtain ⟨line, hline⟩ : ∃ line, (Text.boundaryLines before.toList)[before.toList.count '\n']? = some line :=
    ⟨_, List.getElem?_eq_getElem hlines⟩
  -- one of two names is not what the listing has at the number of the next line
  obtain ⟨name, hname, hother⟩ : ∃ name, (name = "x" ∨ name = "y") ∧
      String.ofList line ≠ "#" ++ name := by
    by_cases hx : String.ofList line = "#x"
    · exact ⟨"y", .inr rfl, by rw [hx]; decide⟩
    · exact ⟨"x", .inl rfl, hx⟩
  let after := "#" ++ name ++ "\n"
  let whole : SourceUnit := { source := { text := before ++ after, file }, setup }
  let number : Int := 1 + before.toList.count '\n'
  have htext : whole.source.text.toList = before.toList ++ after.toList := String.toList_append
  have hquote : whole.quote? ⟨file, number, 1⟩ = some (String.ofList line) :=
    congrArg (Option.map String.ofList) ((line?_of_uncounted htext hends.wholeLines hlines).trans hline)
  have hlineText : whole.source.lineText number = "#" ++ name := by
    rw [lineText_of_append htext hends.wholeLines rfl]
    rcases hname with rfl | rfl
    · decide +kernel
    · decide +kernel
  exact ⟨after, _, ⟨file, number, 2⟩, String.ofList line, error_append hname hends haborted hlive, rfl,
    hquote, fun heq => hother (heq.trans hlineText)⟩

end Run

end CPreprocessor
