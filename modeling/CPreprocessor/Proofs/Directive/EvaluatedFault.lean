import CPreprocessor.Proofs.Directive.Entries
import CPreprocessor.Proofs.Directive.MessageLine
import CPreprocessor.Proofs.Directive.Verdicts
import CPreprocessor.Proofs.Source.Position

/-!
# Faults in conditions

The lexical fault of a line is entered if text is live before the line. An `#if` is evaluated where
text is live, but an `#elif` where it is not. So the fault of an `#elif` that is evaluated is never
entered, and in either case what stands before the fault decides on the branch
(`Run.evaluatedFault_iff`).
-/

namespace CPreprocessor

namespace Run

variable {u : SourceUnit} {table : Table} {s s' : Step} {t t' : Scanned} {front back : List Scanned}
  {cause : LexFault}

/-! ## The fault of a line in the journal -/

theorem nodup_location_steps (u : SourceUnit) (table : Table) :
    ((u.steps table).flatMap (fun s => s.line.map fun t => t.token.location) ++
      (untaken u (initial u table) u.source.logicalLines).flatMap fun line =>
        line.map fun t => t.token.location).Nodup := by
  have h := u.source.nodup_location_logicalLines
  rwa [← map_line_steps u (initial u table) u.source.logicalLines, List.flatMap_append,
    List.flatMap_map] at h

/-- A place tells the step whose line it is on. -/
theorem eq_of_location (hs : s ∈ u.steps table) (hs' : s' ∈ u.steps table) (ht : t ∈ s.line)
    (ht' : t' ∈ s'.line) (h : t'.token.location = t.token.location) : s' = s := by
  have hdisjoint := (List.nodup_flatMap.mp (nodup_location_steps u table).of_append_left).2
  by_contra hne
  have hsymm : Std.Symm (Function.onFun List.Disjoint fun s : Step =>
      s.line.map fun t => t.token.location) := ⟨fun _ _ h => h.symm⟩
  have hpair := hdisjoint.forall hs' hs hne
  refine hpair (List.mem_map_of_mem ht') ?_
  rw [h]
  exact List.mem_map_of_mem ht

/-- The line that a run looks at when it is stopped is none of its steps. -/
theorem location_nextLine_ne (hs : s ∈ u.steps table) (ht : t ∈ s.line)
    (ht' : t' ∈ u.nextLine table) : t'.token.location ≠ t.token.location := by
  intro h
  have hdisjoint := (List.nodup_append.mp (nodup_location_steps u table)).2.2
  refine hdisjoint _ (List.mem_flatMap.mpr ⟨s, hs, List.mem_map_of_mem ht⟩) _ ?_ h.symm
  rw [SourceUnit.nextLine] at ht'
  generalize untaken u (initial u table) u.source.logicalLines = lines at ht' ⊢
  cases lines with
  | nil => exact absurd ht' List.not_mem_nil
  | cons line lines => exact List.mem_flatMap.mpr ⟨line, List.mem_cons_self, List.mem_map_of_mem ht'⟩

/-- The error for a fault. -/
def faultError (u : SourceUnit) (location : Location) (cause : LexFault) : Diagnostic :=
  .error (u.source.report location cause) false

theorem mem_faults_iff {r : Run} {line : List Scanned} {location : Location} :
    faultError u location cause ∈ r.faults u line ↔
      r.isLive = true ∧ inMessage u location = false ∧
        ∃ t ∈ line, t.token.location = location ∧
          ∃ cause', t.fault = some cause' ∧ u.source.report location cause' =
            u.source.report location cause := by
  unfold faults
  split
  · rename_i hlive
    rw [and_iff_right hlive, faultReports]
    constructor
    · intro h
      obtain ⟨report, hreport, heq⟩ := List.mem_map.mp h
      obtain ⟨t, ht, hfault⟩ := List.mem_filterMap.mp hreport
      obtain ⟨ht, hcounts⟩ := List.mem_filter.mp ht
      obtain ⟨cause', hcause, rfl⟩ := Option.map_eq_some_iff.mp hfault
      have hsame : u.source.report t.token.location cause' = u.source.report location cause :=
        (Diagnostic.error.inj heq).1
      obtain rfl : t.token.location = location :=
        Option.some.inj (congrArg Report.location hsame)
      refine ⟨?_, t, ht, rfl, cause', hcause, hsame⟩
      rw [hcause] at hcounts
      simpa using hcounts
    · rintro ⟨hmessage, t, ht, rfl, cause', hcause, hsame⟩
      refine List.mem_map.mpr ⟨_, List.mem_filterMap.mpr ⟨t, List.mem_filter.mpr ⟨ht, ?_⟩, ?_⟩, rfl⟩
      · rw [hcause, hmessage]
        rfl
      · rw [Source.reportOf?, hcause, Option.map_some, hsame]
  · rename_i hlive
    exact iff_of_false List.not_mem_nil fun h => hlive h.1

/-- The fault of a line that a run takes is in its journal exactly if text is live before the line, and
the fault isn't taken for a part of a message. -/
theorem mem_entries_fault_iff (hs : s ∈ u.steps table) (ht : t ∈ s.line)
    (hfault : t.fault = some cause) :
    faultError u t.token.location cause ∈ (start u table).journal.entries ↔
      s.before.isLive = true ∧ inMessage u t.token.location = false := by
  rw [mem_entries_iff_of_isLexical (show (faultError u t.token.location cause).isLexical = true from rfl)]
  constructor
  · rintro (⟨s', hs', herror⟩ | ⟨-, herror⟩)
    · obtain ⟨hlive, hmessage, t', ht', hlocation, -⟩ := mem_faults_iff.mp herror
      rw [eq_of_location hs hs' ht ht' hlocation] at hlive
      exact ⟨hlive, hmessage⟩
    · obtain ⟨-, -, t', ht', hlocation, -⟩ := mem_faults_iff.mp herror
      exact absurd hlocation (location_nextLine_ne hs ht ht')
  · rintro ⟨hlive, hmessage⟩
    exact .inl ⟨s, hs, mem_faults_iff.mpr ⟨hlive, hmessage, t, ht, rfl, cause, hfault, rfl⟩⟩

/-! ## Conditions that are evaluated -/

/-- A step with an `#if` or `#elif` whose condition is evaluated and comes out as `taken`. -/
structure Step.Evaluates (u : SourceUnit) (s : Step) {c : Conditional} (line : ConditionalLine c)
    (taken : Bool) : Prop where
  keyword : c = .opening .ifTrue ∨ c = .elseIf
  tokens : s.line.map Scanned.token = line.tokens
  verdict : (s.after u).verdicts =
    s.before.verdicts ++ [⟨c, line.mark.location, some taken, conditionText line.rest⟩]

variable {c : Conditional} {line : ConditionalLine c} {taken : Bool}

theorem taken_of_effect {r r' : Run} {mark : Location} {text : String} {judged : Option Bool}
    (heffect : r'.effect = r.effect.add ⟨c, mark, judged, text⟩)
    (h : r'.verdicts = r.verdicts ++ [⟨c, mark, some taken, text⟩]) : judged = some taken := by
  have hsame := (congrArg Effect.verdicts heffect).symm.trans h
  exact congrArg Verdict.taken (List.cons.inj (List.append_cancel_left hsame)).1

theorem evaluates_opening {r : Run} {rest : List Token} {mark : Location}
    (h : (r.conditional u (.opening .ifTrue) rest mark).verdicts =
      r.verdicts ++ [⟨.opening .ifTrue, mark, some taken, conditionText rest⟩]) :
    r.isLive = true ∧ taken = Effect.holds u r.table rest mark := by
  rw [conditional_opening] at h
  cases hlive : r.isLive with
  | true =>
    have hoperand : HasOperand .ifTrue rest := .inl rfl
    have hopened := (openFrame_live (u := u) mark hlive hoperand).1
    exact ⟨rfl, (Option.some.inj (taken_of_effect hopened h)).symm⟩
  | false =>
    rw [openFrame_dead _ _ _ _ hlive] at h
    have hskipped : none = some taken := taken_of_effect rfl h
    cases hskipped

/-- An `#elif` is evaluated where no branch of its conditional has been taken. -/
theorem evaluates_elseIf {r : Run} {rest : List Token} {mark : Location}
    (h : (r.conditional u .elseIf rest mark).verdicts =
      r.verdicts ++ [⟨.elseIf, mark, some taken, conditionText rest⟩]) :
    r.isLive = false ∧ taken = Effect.holds u r.table rest mark := by
  have hrefused : r.verdicts ≠ r.verdicts ++ [⟨.elseIf, mark, some taken, conditionText rest⟩] := by
    intro heq
    exact absurd (List.append_right_eq_self.mp heq.symm) (List.cons_ne_nil _ _)
  cases hopen : r.frames with
  | nil =>
    simp only [conditional, hopen, refuse, record] at h
    exact absurd h hrefused
  | cons frame outer =>
    cases first : frame.elseSeen with
    | true =>
      simp only [conditional, hopen, first, if_true, refuse, record] at h
      exact absurd h hrefused
    | false =>
      simp only [conditional, hopen, first, Bool.false_eq_true, if_false] at h
      obtain ⟨live, selected, hstands⟩ := Frame.exists_stands first
      have hjudged := taken_of_effect (elseIf_spec u rest mark hopen hstands).1 h
      split at hjudged
      · rename_i hevaluated
        have hinactive : frame.branch ≠ .active := by
          intro hactive
          obtain ⟨-, hbranch⟩ := hstands
          rw [hactive] at hbranch
          rw [hbranch.2, Bool.not_true, Bool.and_false] at hevaluated
          cases hevaluated
        refine ⟨?_, (Option.some.inj hjudged).symm⟩
        rw [isLive_of_frames hopen, isLive_cons]
        exact decide_eq_false hinactive
      · cases hjudged

/-- An `#if` is evaluated where text is live, an `#elif` where it is not, and what is evaluated says
whether the branch is taken. -/
theorem Step.Evaluates.spec (h : s.Evaluates u line taken) :
    (s.before.isLive = true ↔ c = .opening .ifTrue) ∧
      taken = Effect.holds u s.before.table line.rest line.mark.location := by
  obtain ⟨r, heffect, hframes, -, hnotes⟩ := take_conditional (u := u) s.line line h.tokens
  have htable : r.table = s.before.table := congrArg Effect.table heffect
  have hbefore : r.verdicts = s.before.verdicts := congrArg Effect.verdicts heffect
  have hverdict : (r.conditional u c line.rest line.mark.location).verdicts =
      r.verdicts ++ [⟨c, line.mark.location, some taken, conditionText line.rest⟩] := by
    rw [hbefore]
    exact (congrArg Effect.verdicts hnotes.effect).symm.trans h.verdict
  rw [← htable, isLive, ← hframes, ← isLive]
  rcases h.keyword with rfl | rfl
  · obtain ⟨hlive, htaken⟩ := evaluates_opening hverdict
    exact ⟨iff_of_true hlive rfl, htaken⟩
  · obtain ⟨hdead, htaken⟩ := evaluates_elseIf hverdict
    have hother : Conditional.elseIf ≠ .opening .ifTrue := by rintro ⟨⟩
    exact ⟨iff_of_false (Bool.eq_false_iff.mp hdead) hother, htaken⟩

/-! ## What stands before the fault -/

theorem blank_of_fault (hmem : t ∈ u.source.scan) (hfault : t.fault = some cause) :
    t.token = .blank t.token.location := by
  obtain ⟨x, -, p, -, rfl⟩ := Source.exists_of_mem_settle hmem
  cases x with
  | token kind text => cases hfault
  | fault cause' skipped => rfl

/-- The tokens of a line with a fault, without the newlines that blanks leave. -/
theorem filter_around_fault (hmem : s.line ∈ u.source.logicalLines) (hline : s.line = front ++ t :: back)
    (hfault : t.fault = some cause) :
    (s.line.map Scanned.token).filter (fun t => t.kind ≠ .newline) =
      front.map Scanned.token ++ [.blank t.token.location] := by
  obtain ⟨l, hl⟩ := Source.mem_logicalLines_iff.mp hmem
  obtain ⟨hfront, hback⟩ := Source.Line.kind_around_fault (hl.trans hline) hfault
  have hblank := blank_of_fault (Source.mem_scan_of_mem_logicalLines hmem
    (hline ▸ List.mem_append_right _ List.mem_cons_self)) hfault
  have hkept : (front.map Scanned.token).filter (fun t => t.kind ≠ .newline) = front.map Scanned.token :=
    List.filter_eq_self.mpr (List.forall_mem_map.mpr fun f hf => decide_eq_true (hfront f hf))
  have hdropped : (back.map Scanned.token).filter (fun t => t.kind ≠ .newline) = [] :=
    List.filter_eq_nil_iff.mpr (List.forall_mem_map.mpr fun f hf => by
      rw [hback f hf]
      decide)
  have ht : [t.token].filter (fun t => t.kind ≠ .newline) = [.blank t.token.location] := by
    rw [hblank]
    rfl
  rw [hline, List.map_append, List.map_cons, List.append_cons, List.filter_append, List.filter_append,
    hkept, hdropped, ht, List.append_nil]

/-- A fault is the last thing on a line with a directive. -/
theorem exists_condition (hmem : s.line ∈ u.source.logicalLines)
    (htokens : s.line.map Scanned.token = line.tokens) (hline : s.line = front ++ t :: back)
    (hfault : t.fault = some cause) :
    ∃ condition, line.rest = condition ++ [.blank t.token.location] := by
  obtain ⟨lead, gap, after, hdirects, hrest⟩ := LineForm.of_eq_directive_iff.mp line.form
  have hname := of_decide_eq_true hdirects.name
  obtain ⟨before, hsplit⟩ : ∃ before,
      line.tokens.filter (fun t => t.kind ≠ .newline) = before ++ line.name :: line.rest := by
    have hdirected : line.tokens = (lead ++ line.mark :: gap) ++ line.name :: after := by
      rw [hdirects.line, List.append_assoc]
      rfl
    refine ⟨(lead ++ line.mark :: gap).filter fun t => t.kind ≠ .newline, ?_⟩
    rw [hdirected, List.filter_append, List.filter_cons_of_pos (by rw [hname]; decide), hrest]
  have hsame := (filter_around_fault hmem hline hfault).symm.trans (htokens ▸ hsplit)
  rcases List.eq_nil_or_concat line.rest with hnil | ⟨condition, last, hlast⟩
  · -- The name would be the blank of the fault.
    rw [hnil] at hsame
    rw [← (List.cons.inj (List.append_inj' hsame rfl).2).1] at hname
    cases hname
  · rw [hlast, List.concat_eq_append, ← List.cons_append, ← List.append_assoc] at hsame
    have hblank := (List.cons.inj (List.append_inj' hsame rfl).2).1
    exact ⟨condition, by rw [hlast, List.concat_eq_append, ← hblank]⟩

/-- Where the lines of a source are counted alike, the fault of an `#if` is never taken for a part of a
message, if no comment with a newline stands before it. -/
theorem inMessage_eq_false (hfirst : u.source.firstLine = 1) {line : ConditionalLine (.opening .ifTrue)}
    (htokens : s.line.map Scanned.token = line.tokens) (hline : s.line = front ++ t :: back)
    (hfault : t.fault = some cause) {l : u.source.Line} (hl : l.tokens = s.line) (hcounted : l.Counted)
    (hfront : ∀ f ∈ front, '\n' ∉ f.token.text.toList) :
    inMessage u t.token.location = false := by
  have hsplit := hl.trans hline
  rw [inMessage_eq hfirst hcounted hsplit (Source.Line.kind_ne_of_fault hsplit hfault) hfront]
  have hform : LineForm.of (l.tokens.map Scanned.token) = .directive line.mark line.name line.rest := by
    rw [hl, htokens, line.form]
  obtain ⟨lead, gap, after, hdirects, -⟩ := LineForm.of_eq_directive_iff.mp hform
  obtain ⟨lead', gap', after', hlexemes, -⟩ := Source.Line.exists_lexeme_directs hdirects
  have hname : line.name.text = "if" := by
    simpa [Keyword.table] using Keyword.mem_table_of_ofText? line.keyword
  rw [hname] at hlexemes
  rw [Option.isSome_eq_false_iff, Option.isNone_iff_eq_none]
  exact Lexeme.Directs.message?_eq_none (u := l.chars) hlexemes

/-- The fault on the line of an `#if` or `#elif` that is evaluated is in the journal exactly if it is an
`#if` and the fault is not taken for a part of a message. In either case what stands before the fault
says whether the branch is taken. So an error is entered and the branch left out exactly where that
condition of an `#if` does not hold. -/
theorem evaluatedFault_iff (hs : s ∈ u.steps table) (h : s.Evaluates u line taken)
    (hline : s.line = front ++ t :: back) (hfault : t.fault = some cause) :
    let entries := (start u table).journal.entries
    let holds := Effect.holds u s.before.table line.rest line.mark.location
    (faultError u t.token.location cause ∈ entries ↔
        c = .opening .ifTrue ∧ inMessage u t.token.location = false) ∧
      taken = holds ∧ (∃ condition, line.rest = condition ++ [.blank t.token.location]) ∧
      (faultError u t.token.location cause ∈ entries ∧ taken = false ↔
        c = .opening .ifTrue ∧ inMessage u t.token.location = false ∧ holds = false) ∧
      (u.source.firstLine = 1 → c = .opening .ifTrue → ∀ l : u.source.Line, l.tokens = s.line →
        l.Counted → (∀ f ∈ front, '\n' ∉ f.token.text.toList) →
          inMessage u t.token.location = false) := by
  intro entries holds
  obtain ⟨hlive, htaken⟩ := h.spec
  have hmem : t ∈ s.line := hline ▸ List.mem_append_right _ List.mem_cons_self
  have hentries := mem_entries_fault_iff hs hmem hfault
  rw [hlive] at hentries
  have hlogical := (prefix_map_line u table).subset (List.mem_map_of_mem hs)
  refine ⟨hentries, htaken, exists_condition hlogical h.tokens hline hfault, ?_, ?_⟩
  · rw [hentries, htaken, and_assoc]
  · rintro hfirst rfl l hl hcounted hfront
    exact inMessage_eq_false hfirst h.tokens hline hfault hl hcounted hfront

/-- A source with a quote in the condition of its first line. -/
def unquoted : SourceUnit := { source := { text := "#if 1 '\n#endif\n" } }

/-- The first line of that source. -/
def unquotedLine : List Scanned := unquoted.source.logicalLines.headD []

/-- The `#if` of that line. -/
def unquotedDirective : ConditionalLine (.opening .ifTrue) where
  tokens := unquotedLine.map Scanned.token
  mark := { kind := .punctuator, text := "#", location := ⟨"<input>", 1, 1⟩ }
  name := { kind := .identifier, text := "if", location := ⟨"<input>", 1, 2⟩ }
  rest :=
    [.blank ⟨"<input>", 1, 4⟩, { kind := .number, text := "1", location := ⟨"<input>", 1, 5⟩ },
      .blank ⟨"<input>", 1, 6⟩, .blank ⟨"<input>", 1, 7⟩]
  form := by cbv
  keyword := by cbv

/-- The fault of the `#if` is entered, but its branch is taken. -/
theorem evaluatedFault_unquoted :
    let s : Step := ⟨initial unquoted ∅, unquotedLine⟩
    s ∈ unquoted.steps ∅ ∧ s.Evaluates unquoted unquotedDirective true ∧
      faultError unquoted ⟨"<input>", 1, 7⟩ .unterminatedCharacter ∈
        (start unquoted ∅).journal.entries := by
  intro s
  have hs : s ∈ unquoted.steps ∅ := by
    have hlines : unquoted.source.logicalLines = unquotedLine :: unquoted.source.logicalLines.tail := by
      decide +kernel
    rw [SourceUnit.steps, hlines]
    exact List.mem_cons_self
  have hevaluates : s.Evaluates unquoted unquotedDirective true := by
    refine ⟨.inl rfl, rfl, ?_⟩
    have heffect := (take_opening (u := unquoted) (r := s.before) unquotedLine unquotedDirective rfl
      (.inl rfl) rfl).1
    have hholds : Effect.holds unquoted ∅ unquotedDirective.rest unquotedDirective.mark.location =
        true := by cbv
    have hopens : Effect.opens unquoted (s.before.effect.text unquoted s.before.pending).table .ifTrue
        unquotedDirective.rest unquotedDirective.mark.location = true := hholds
    simp only [hopens] at heffect
    exact congrArg Effect.verdicts heffect
  have hline : unquotedLine =
      unquotedLine.take 5 ++ ⟨.blank ⟨"<input>", 1, 7⟩, some .unterminatedCharacter⟩ ::
        unquotedLine.drop 6 := by decide +kernel
  exact ⟨hs, hevaluates, (evaluatedFault_iff hs hevaluates hline rfl).1.mpr ⟨rfl, by decide +kernel⟩⟩

/-- The fault of an `#elif` is not entered, and its branch is taken. -/
theorem evaluatedFault_dropped :
    let u : SourceUnit := { source := { text := "#if 0\n#elif 1 '\nx\n#endif\n" } }
    u.source.scan.filterMap Scanned.fault = [.unterminatedCharacter] ∧
      (start u ∅).verdicts.map (fun v => (v.directive, v.taken)) =
        [(.opening .ifTrue, some false), (.elseIf, some true)] ∧
      (start u ∅).journal.entries = [] ∧ (start u ∅).text = "x\n" := by
  intro u
  exact ⟨by decide +kernel, by cbv, by cbv, by cbv⟩

end Run

end CPreprocessor
