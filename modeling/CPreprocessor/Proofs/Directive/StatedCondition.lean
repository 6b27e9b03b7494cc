import CPreprocessor.Proofs.Condition.LoneConstant
import CPreprocessor.Proofs.Directive.Relocation
import CPreprocessor.Proofs.Directive.Steps
import CPreprocessor.Proofs.Directive.Uncaught
import CPreprocessor.Proofs.Expansion.Machine
import CPreprocessor.Proofs.Expansion.Plain
import CPreprocessor.Proofs.Source.ClosedLine
import CPreprocessor.Proofs.Source.LogicalLine

/-!
# A condition on its own and in an `#if`

A condition is decided on its own (`conditionHolds`) or by a run, as what stands behind an `#if`. The same
comes of it in both (`Expander.outcome`), which depends neither on columns nor on layout before the
condition, so the verdict of the `#if` is what is said of the condition alone (`Run.run_ofCondition`). A
number that is too long to be converted has no verdict in either (`Run.run_ofCondition_longNumber`).
-/

namespace CPreprocessor

open Lexeme

variable {f : Location → Location} {c : String} {t : Token} {ts tokens : List Token}

/-! ## What comes of a condition -/

theorem evaluate_layout_cons (ht : t.isLayout = true) (s : Setting) (tokens : List Token) :
    evaluate s (t :: tokens) = evaluate s tokens := by
  unfold evaluate
  rw [List.filter_cons_of_neg (by simp [ht])]

namespace Expander

variable {e : Expander} {nestingLimit : Nat}

/-- Columns do not change what comes of a condition. -/
theorem outcome_columns (hf : ∀ l, (f l).file = l.file ∧ (f l).line = l.line) (tokens : List Token) :
    e.outcome nestingLimit (tokens.map (.relocate f)) = e.outcome nestingLimit tokens :=
  outcome_relocate (.refl e) (.inr hf) nestingLimit tokens

/-- Layout before a condition does not change what comes of it. -/
theorem outcome_layout_cons (ht : t.isLayout = true) (tokens : List Token) :
    e.outcome nestingLimit (t :: tokens) = e.outcome nestingLimit tokens := by
  obtain ⟨hname, hstays⟩ := Token.kind_of_isLayout ht
  have hoperator : ¬ Defined.isOperator t = true := by
    simp [Defined.isOperator, Token.isIdentifier, hname]
  rw [outcome, Defined.resolve, if_neg hoperator, outcome]
  cases Defined.resolve e.table.isDefined tokens with
  | error fault => rfl
  | ok resolved =>
    have hexpand : e.expand (t :: resolved) =
        (e.expand resolved).map fun x => ⟨t :: x.tokens, x.trace⟩ :=
      expand_plain_append (List.forall_mem_singleton.mpr hstays)
        (List.forall_mem_singleton.mpr (definition?_of_kind hname)) resolved
    simp only [Except.map]
    rw [hexpand]
    cases e.expand resolved with
    | error error => rfl
    | ok expansion =>
      simp only [Except.map]
      rw [evaluate_layout_cons ht]

/-- A number stands for itself, so it comes to what it is converted to. -/
theorem outcome_number (h : t.kind = .number) :
    e.outcome nestingLimit [t] = (Constant.integer t.text).mapError some := by
  have hoperator : ¬ Defined.isOperator t = true := by simp [Defined.isOperator, Token.isIdentifier, h]
  have hname : t.kind ≠ .identifier := by simp [h]
  have hstays : t.Stays := ⟨by simp [h], by simp [h]⟩
  rw [outcome, Defined.resolve, if_neg hoperator, Defined.resolve]
  simp only [Except.map]
  rw [expand_plain (List.forall_mem_singleton.mpr hstays)
    (List.forall_mem_singleton.mpr (definition?_of_kind hname))]
  simp only [Evaluation.outcome]
  rw [evaluate_number _ h]
  cases Constant.integer t.text with
  | ok value => rfl
  | error cause => rfl

end Expander

namespace Report.TellsOf

variable {report report' : Report} {cause : Option ConditionFault}

theorem message {fault : ConditionFault} (h : report.TellsOf (some fault)) :
    report.message = fault.message := by
  obtain ⟨location, line, rfl⟩ := h
  rfl

theorem isOwn (h : report.TellsOf cause) :
    report.category.isOwn = cause.all fun fault => fault.category.isOwn := by
  cases cause with
  | none =>
    obtain ⟨error, line, rfl⟩ := h
    exact error.isOwn_report line
  | some fault =>
    obtain ⟨location, line, rfl⟩ := h
    rfl

/-- Of an error that is not of this library nothing but its cause is told. -/
theorem unique (h : report.TellsOf cause) (h' : report'.TellsOf cause)
    (hforeign : report.category.isOwn = false) : report' = report := by
  rw [h.isOwn] at hforeign
  cases cause with
  | none => cases hforeign
  | some fault =>
    obtain ⟨location, line, rfl⟩ := h
    obtain ⟨location', line', rfl⟩ := h'
    have hfault : ¬ fault.category.isOwn = true := ne_true_of_eq_false hforeign
    rw [ConditionFault.report, ConditionFault.report]
    simp only [if_neg hfault]

end Report.TellsOf

/-- On its own a condition holds if its value is true, and it cannot be decided if it has none. -/
theorem conditionHolds_eq_outcome (h : Source.tokens { text := c } = .ok ts) (table : Table)
    (nestingLimit : Nat) :
    match Expander.outcome { table } nestingLimit ts with
    | .ok value => conditionHolds table c nestingLimit = .ok value.truthy
    | .error cause => ∃ report, conditionHolds table c nestingLimit = .error report ∧
        report.TellsOf cause := by
  rw [conditionHolds, h, Expander.outcome]
  simp only
  cases Defined.resolve table.isDefined ts with
  | error fault => exact ⟨_, rfl, fault.location, none, rfl⟩
  | ok resolved =>
    simp only
    cases Expander.expand { table } resolved with
    | error error => exact ⟨_, rfl, error, _, rfl⟩
    | ok expansion =>
      simp only [Evaluation.outcome]
      cases (evaluate { isDefined := table.isDefined, nestingLimit } expansion.tokens).result with
      | error fault => exact ⟨_, rfl, fault.location, none, rfl⟩
      | ok value => rfl

/-! ## The line of the `#if` -/

/-- The place before the line that a place is in. -/
def Location.margin (l : Location) : Location := { l with column := 0 }

/-- The line `#if` with a condition. -/
def conditionLine (c : String) : Source := { text := "#if " ++ c ++ "\n" }

/-- A conditional that is opened with a condition and closed right away. -/
def SourceUnit.ofCondition (c : String) (nestingLimit : Nat := usualNestingLimit) : SourceUnit :=
  { source := { text := "#if " ++ c ++ "\n#endif\n" }, setup := { nestingLimit } }

/-- A lexeme as a token at a place. -/
def Token.ofLexeme (location : Location) : Lexeme → Token
  | .token kind text => { kind, text := String.ofList text, location }
  | .fault _ _ => .blank location

theorem Token.kind_ofLexeme (location : Location) (l : Lexeme) :
    (ofLexeme location l).kind = l.kind := by
  cases l with
  | token kind text => rfl
  | fault cause skipped => rfl

/-- Up to columns, the tokens of a source of one line are its lexemes. -/
theorem Source.map_margin_scan {s : Source} (h : '\n' ∉ s.text.toList.dropLast) :
    (s.scan.map Scanned.token).map (Token.relocate .margin) =
      (lexemes (despliced s.text.toList)).map (Token.ofLexeme ⟨s.file, s.firstLine, 0⟩) := by
  have hplace : ∀ t ∈ s.scan, t.token.relocate .margin = t.token.moveTo ⟨s.file, s.firstLine, 0⟩ := by
    intro t ht
    rw [Token.relocate, Location.margin, file_of_mem_scan ht, line_of_mem_scan_single h ht]
  rw [List.map_map]
  exact (List.map_congr_left hplace).trans (s.map_scan fun p l => by cases l <;> rfl)

/-- The line, up to columns, as a directive. -/
theorem form_of_lexemes {ls : List Lexeme} (text : List Char) (h : ∀ l ∈ ls, l.kind ≠ .newline)
    {location : Location} :
    LineForm.of ((.token .punctuator ['#'] :: .token .identifier ['i', 'f'] ::
        .token .whitespace text :: (ls ++ [.token .newline ['\n']])).map (.ofLexeme location)) =
      .directive (Token.ofLexeme location (.token .punctuator ['#']))
        (Token.ofLexeme location (.token .identifier ['i', 'f']))
        (Token.ofLexeme location (.token .whitespace text) :: ls.map (.ofLexeme location)) := by
  have hkept : (ls.map (Token.ofLexeme location)).filter (fun t => t.kind ≠ .newline) =
      ls.map (.ofLexeme location) := by
    refine List.filter_eq_self.mpr (List.forall_mem_map.mpr fun l hl => ?_)
    rw [Token.kind_ofLexeme]
    exact decide_eq_true (h l hl)
  have hrest : ((Lexeme.token .whitespace text :: (ls ++ [.token .newline ['\n']])).map
      (Token.ofLexeme location)).filter (fun t => t.kind ≠ .newline) =
        Token.ofLexeme location (.token .whitespace text) :: ls.map (.ofLexeme location) := by
    rw [List.map_cons, List.map_append, List.filter_cons_of_pos rfl, List.filter_append, hkept]
    exact congrArg _ (List.append_nil _)
  rw [← hrest]
  rfl

section
variable (hline : '\n' ∉ c.toList) (hends : ¬ GoesOn c.toList)
include hline

theorem faultless_of_condition (h : Source.tokens { text := c } = .ok ts) :
    Faultless (lexemes c.toList) := by
  have hread := Source.lexemes_of_tokens h
  rw [despliced_of_not_mem_newline hline] at hread
  exact hread ▸ faultless_of_tokens ts

theorem not_mem_newline_conditionLine : '\n' ∉ (conditionLine c).text.toList.dropLast := by
  have hlast : (conditionLine c).text.toList = ('#' :: 'i' :: 'f' :: ' ' :: c.toList) ++ ['\n'] := by
    rw [conditionLine, String.toList_append, String.toList_append]
    rfl
  rw [hlast, List.dropLast_concat]
  simpa using hline

include hends

theorem despliced_conditionLine :
    despliced (conditionLine c).text.toList = '#' :: 'i' :: 'f' :: ' ' :: c.toList ++ ['\n'] := by
  have htext : (conditionLine c).text.toList = '#' :: 'i' :: 'f' :: ' ' :: (c.toList ++ ['\n']) := by
    rw [conditionLine, String.toList_append, String.toList_append]
    rfl
  have hend : despliced ['\n'] = ['\n'] := by decide
  rw [htext, despliced_cons (by decide), despliced_cons (by decide), despliced_cons (by decide),
    despliced_cons (by decide), despliced_append_of_not_goesOn hends,
    despliced_of_not_mem_newline hline, hend]
  rfl

/-- The line is read as `#`, `if`, a blank and the condition; the blank may be longer than the one
between `if` and the condition. -/
theorem lexemes_conditionLine (hlexed : Faultless (lexemes c.toList)) :
    ∃ text ls, Faultless ls ∧ (∀ l ∈ ls, l.kind ≠ .newline) ∧
      (lexemes c.toList = ls ∨ ∃ blanks, lexemes c.toList = .token .whitespace blanks :: ls) ∧
      lexemes (despliced (conditionLine c).text.toList) =
        .token .punctuator ['#'] :: .token .identifier ['i', 'f'] :: .token .whitespace text ::
          (ls ++ [.token .newline ['\n']]) := by
  obtain ⟨text, ls, hblank, hls⟩ := lexemes_blank_cons c.toList
  have hsub : ∀ l ∈ ls, l ∈ lexemes c.toList := by
    intro l hl
    obtain heq | ⟨blanks, heq⟩ := hls
    · rwa [heq]
    · rw [heq]
      exact List.mem_cons_of_mem _ hl
  have hfaultless : Faultless ls := fun l hl => hlexed l (hsub l hl)
  refine ⟨text, ls, hfaultless, fun l hl => kind_of_mem_lexemes hline l (hsub l hl), hls, ?_⟩
  have hclosed : lexemes (' ' :: c.toList ++ ['\n']) =
      .token .whitespace text :: (ls ++ [.token .newline ['\n']]) := by
    rw [lexemes_append_newline, hblank, List.cons_append]
    rw [hblank]
    exact List.forall_mem_cons.mpr ⟨⟨_, _, rfl⟩, hfaultless⟩
  have hmark : ∀ u, first '#' ('i' :: u) = .ok (.punctuator, 0) := fun u => rfl
  have hname : ∀ u, first 'i' ('f' :: ' ' :: u) = .ok (.identifier, 1) := fun u => rfl
  rw [despliced_conditionLine hline hends, List.cons_append, List.cons_append, List.cons_append, lexemes,
    hmark]
  simp only [List.take_zero, List.drop_zero]
  rw [List.cons_append, lexemes, hname]
  simp only [List.take_succ_cons, List.take_zero, List.drop_succ_cons, List.drop_zero]
  rw [← List.cons_append, hclosed]

theorem faultless_conditionLine (hlexed : Faultless (lexemes c.toList)) :
    Faultless (lexemes (despliced (conditionLine c).text.toList)) := by
  obtain ⟨text, ls, hfaultless, -, -, hread⟩ := lexemes_conditionLine hline hends hlexed
  rw [hread]
  intro l hl
  simp only [List.mem_cons, List.mem_append, List.not_mem_nil, or_false] at hl
  rcases hl with rfl | rfl | rfl | hl | rfl
  · exact ⟨_, _, rfl⟩
  · exact ⟨_, _, rfl⟩
  · exact ⟨_, _, rfl⟩
  · exact hfaultless l hl
  · exact ⟨_, _, rfl⟩

/-- The same comes of what stands behind the `if` as of the condition on its own. -/
theorem form_conditionLine (h : Source.tokens { text := c } = .ok ts) :
    ∃ mark name rest,
      LineForm.of ((conditionLine c).scan.map Scanned.token) = .directive mark name rest ∧
        name.text = "if" ∧ ∀ (e : Expander) (nestingLimit : Nat),
          e.outcome nestingLimit rest = e.outcome nestingLimit ts := by
  have hcolumns : ∀ l : Location, l.margin.file = l.file ∧ l.margin.line = l.line :=
    fun l => ⟨rfl, rfl⟩
  have hdespliced : despliced c.toList = c.toList := despliced_of_not_mem_newline hline
  have hlexed := Source.lexemes_of_tokens h
  rw [hdespliced] at hlexed
  obtain ⟨text, ls, -, hkinds, hls, hread⟩ :=
    lexemes_conditionLine hline hends (hlexed ▸ faultless_of_tokens ts)
  have halone : ts.map (Token.relocate .margin) =
      (lexemes c.toList).map (.ofLexeme ⟨"<input>", 1, 0⟩) := by
    have hscan := Source.map_margin_scan (s := { text := c }) fun hmem =>
      hline (List.dropLast_subset _ hmem)
    rwa [Source.map_token_scan h, hdespliced] at hscan
  have hwithin := Source.map_margin_scan (not_mem_newline_conditionLine hline)
  rw [hread] at hwithin
  have hform := LineForm.of_relocate (f := .margin) ((conditionLine c).scan.map Scanned.token)
  rw [hwithin, form_of_lexemes text hkinds] at hform
  cases hof : LineForm.of ((conditionLine c).scan.map Scanned.token) with
  | text => rw [hof] at hform; cases hform
  | nothing => rw [hof] at hform; cases hform
  | invalid mark name => rw [hof] at hform; cases hform
  | directive mark name rest =>
    rw [hof] at hform
    obtain ⟨-, hname, hrest⟩ := LineForm.directive.inj hform
    refine ⟨mark, name, rest, rfl, (congrArg Token.text hname).symm, fun e nestingLimit => ?_⟩
    calc e.outcome nestingLimit rest
        = e.outcome nestingLimit (rest.map (.relocate .margin)) :=
          (Expander.outcome_columns hcolumns rest).symm
      _ = e.outcome nestingLimit (ls.map (.ofLexeme ⟨"<input>", 1, 0⟩)) := by
        rw [← hrest]
        exact Expander.outcome_layout_cons rfl _
      _ = e.outcome nestingLimit ((lexemes c.toList).map (.ofLexeme ⟨"<input>", 1, 0⟩)) := by
        obtain heq | ⟨blanks, heq⟩ := hls
        · rw [heq]
        · rw [heq]
          exact (Expander.outcome_layout_cons rfl _).symm
      _ = e.outcome nestingLimit ts := by rw [← halone, Expander.outcome_columns hcolumns]

/-- The source is the line of the `#if` and that of the `#endif`. -/
theorem logicalLines_ofCondition (hlexed : Faultless (lexemes c.toList)) (nestingLimit : Nat) :
    ∃ line, (SourceUnit.ofCondition c nestingLimit).source.logicalLines =
      [(conditionLine c).scan, Source.closingLine "<input>" line] := by
  obtain ⟨text, ls, -, hkinds, -, hread⟩ := lexemes_conditionLine hline hends hlexed
  have hsource : (SourceUnit.ofCondition c nestingLimit).source = (conditionLine c).extend "#endif\n" := by
    have htext : "#if " ++ c ++ "\n#endif\n" = "#if " ++ c ++ "\n" ++ "#endif\n" := by
      simp only [String.append_assoc]
      rfl
    rw [SourceUnit.ofCondition, Source.extend, conditionLine, htext]
  have hsingle : (conditionLine c).logicalLines = [(conditionLine c).scan] := by
    refine Source.logicalLines_of_dropLast (by rw [hread]; exact List.cons_ne_nil _ _) ?_
    rw [hread, ← List.cons_append, ← List.cons_append, ← List.cons_append, List.dropLast_concat]
    simpa [Lexeme.kind] using hkinds
  have hnewline : (conditionLine c).EndsLine := by
    refine Source.endsLine_of_lexemes fun l hl => ⟨['\n'], ?_⟩
    rw [hread, ← List.cons_append, ← List.cons_append, ← List.cons_append, List.getLast?_concat] at hl
    exact (Option.some.inj hl).symm
  refine ⟨(conditionLine c).firstLine + (conditionLine c).newlines, ?_⟩
  rw [hsource, Source.logicalLines_extend hnewline, hsingle, Source.logicalLines, Source.following,
    Source.scan_closing]
  rfl

end

/-! ## The run -/

namespace Run

variable {u : SourceUnit} {r : Run}

theorem noteFaults_of_none {line : List Scanned} (h : ∀ t ∈ line, t.fault = none) (u : SourceUnit)
    (r : Run) : r.noteFaults u line = r := by
  have hreports : faultReports u line = [] := faultReports_eq_nil_iff.mpr fun t ht hfault => by
    rw [h t ht] at hfault
    cases hfault
  rw [noteFaults]
  split
  · exact congrArg (List.foldl record r) hreports
  · rfl

/-- A live `#if` opens a frame, whose branch is taken if the condition has a true value. -/
theorem openFrame_ifTrue (hlive : r.isLive = true) (hwarn : u.setup.warnUndefined = false)
    (rest : List Token) (mark : Location) :
    r.openFrame u .ifTrue rest mark =
      match (u.evaluate r.table rest mark).1 with
      | .ok value =>
        { r with
          frames := ⟨.ifTrue, if value.truthy then .active else .awaiting, mark, false⟩ :: r.frames
          verdicts := r.verdicts ++
            [⟨.opening .ifTrue, mark, some value.truthy, conditionText rest⟩] }
      | .error report =>
        { r.record report with
          frames := ⟨.ifTrue, .awaiting, mark, false⟩ :: r.frames
          verdicts := r.verdicts ++ [⟨.opening .ifTrue, mark, some false, conditionText rest⟩] } := by
  simp only [openFrame, hlive, if_true, test, hwarn, Bool.false_eq_true, if_false]
  cases (u.evaluate r.table rest mark).1 with
  | error report => rfl
  | ok value =>
    simp only
    cases value.truthy with
    | false => rfl
    | true => rfl

/-- A run whose only frame is closed by its last line. -/
theorem finish_closingLine {frame : Frame} (hframes : r.frames = [frame]) (hpending : r.pending = [])
    (haborted : r.aborted = false) (hfull : r.journal.isFull = false) (file : String) (line : Int) :
    (takeLines u r [Source.closingLine file line]).finish u = r.pass [] [] := by
  have hform : LineForm.of ((Source.closingLine file line).map Scanned.token) =
    .directive _ _ [] := (closingDirective file line).form
  have htake : r.takeLine u ((Source.closingLine file line).map Scanned.token) = r.pass [] [] := by
    rw [takeLine, hform]
    simp only
    rw [flush_of_pending hpending]
    exact conditional_closing hframes _
  have hjournal : (r.pass [] []).checkJournal = r.pass [] [] := by
    rw [checkJournal, pass, hfull]
    rfl
  have hfaults : ∀ t ∈ Source.closingLine file line, t.fault = none := by
    simp [Source.closingLine]
  rw [takeLines_cons haborted, take, noteFaults_of_none hfaults, htake, hjournal, takeLines, finish,
    if_neg (by rw [pass, haborted]; exact Bool.false_ne_true)]
  simp only
  rw [flush_of_pending (r := r.pass [] []) hpending]
  rfl

/-- A run over a conditional that is opened and closed right away. -/
theorem start_of_lines {table : Table} {mark name : Token} {rest : List Token} {opened : Run} {frame : Frame}
    {first : List Scanned} {line : Int}
    (hlines : u.source.logicalLines = [first, Source.closingLine "<input>" line])
    (hfaults : ∀ t ∈ first, t.fault = none)
    (hform : LineForm.of (first.map Scanned.token) = .directive mark name rest)
    (hname : name.text = "if")
    (hopened : (initial u table).openFrame u .ifTrue rest mark.location = opened)
    (hframes : opened.frames = [frame]) (hpending : opened.pending = [])
    (haborted : opened.aborted = false) (hfull : opened.journal.isFull = false) :
    start u table = opened.pass [] [] := by
  have htake : (initial u table).takeLine u (first.map Scanned.token) = opened := by
    rw [takeLine, hform]
    simp only
    rw [flush_of_pending rfl, directive, hname]
    exact hopened
  have hjournal : opened.checkJournal = opened := by
    rw [checkJournal, hfull]
    rfl
  have hfirst : take u (initial u table) first = opened := by
    rw [take, noteFaults_of_none hfaults, htake, hjournal]
  calc start u table
      = (takeLines u (initial u table) u.source.logicalLines).finish u := rfl
    _ = (takeLines u opened [Source.closingLine "<input>" line]).finish u := by
      rw [hlines, takeLines_cons rfl, hfirst]
    _ = opened.pass [] [] := finish_closingLine hframes hpending haborted hfull _ _

/-- Whether a run over one `#if` finds of the condition what is found of it otherwise: that it holds or
not, without any error, or that it has no value, for which the run enters one error and does not take the
branch. If that error is none of this library, it is what comes of the run. -/
def Finds (ran : Except Report Run) : Except Report Bool → Prop
  | .ok holds => ∃ r, ran = .ok r ∧ r.journal.errors = [] ∧
      r.verdicts.map (fun v => (v.directive, v.taken)) = [(.opening .ifTrue, some holds)]
  | .error report =>
    if report.category.isOwn then
      ∃ r, ran = .ok r ∧ r.journal.errorCount = 1 ∧
        r.verdicts.map (fun v => (v.directive, v.taken)) = [(.opening .ifTrue, some false)]
    else ran = .error report

theorem Finds.congr_report {ran : Except Report Run} {report report' : Report}
    {cause : Option ConditionFault} (h : Finds ran (.error report)) (htells : report.TellsOf cause)
    (htells' : report'.TellsOf cause) : Finds ran (.error report') := by
  have hown : report'.category.isOwn = report.category.isOwn := htells'.isOwn.trans htells.isOwn.symm
  cases hforeign : report.category.isOwn with
  | true =>
    simp only [Finds, hown, hforeign, if_true] at h ⊢
    exact h
  | false => rwa [htells.unique htells' hforeign]

/-- A run finds of a condition behind an `#if` what comes of the condition on its own. -/
theorem finds_ofCondition (table : Table) (nestingLimit : Nat) (hline : '\n' ∉ c.toList)
    (hends : ¬ GoesOn c.toList) (h : Source.tokens { text := c } = .ok ts) :
    match Expander.outcome { table } nestingLimit ts with
    | .ok value => Finds (run (.ofCondition c nestingLimit) table) (.ok value.truthy)
    | .error cause => ∃ report, report.TellsOf cause ∧
        Finds (run (.ofCondition c nestingLimit) table) (.error report) := by
  have hfaultless := faultless_of_condition hline h
  obtain ⟨mark, name, rest, hform, hname, houtcome⟩ := form_conditionLine hline hends h
  obtain ⟨line, hlines⟩ := logicalLines_ofCondition hline hends hfaultless nestingLimit
  have hfaults : ∀ t ∈ (conditionLine c).scan, t.fault = none := fun t ht =>
    Source.fault_of_mem_scan (faultless_conditionLine hline hends hfaultless) ht
  have hopened := openFrame_ifTrue (u := .ofCondition c nestingLimit)
    (r := initial (.ofCondition c nestingLimit) table) rfl rfl rest mark.location
  have htold := (SourceUnit.ofCondition c nestingLimit).evaluate_eq_outcome table rest mark.location
  have hexpander : (SourceUnit.ofCondition c nestingLimit).expander table = { table } := rfl
  have hsetup : (SourceUnit.ofCondition c nestingLimit).setup.nestingLimit = nestingLimit := rfl
  have htable : (initial (.ofCondition c nestingLimit) table).table = table := rfl
  rw [hexpander, hsetup, houtcome] at htold
  rw [htable] at hopened
  cases hfound : Expander.outcome { table } nestingLimit ts with
  | ok value =>
    rw [hfound] at htold
    rw [htold] at hopened
    have hstart := start_of_lines hlines hfaults hform hname hopened rfl rfl rfl rfl
    exact ⟨_, run_eq_ok_iff.mpr ⟨by rw [hstart]; rfl, hstart⟩, rfl, rfl⟩
  | error cause =>
    rw [hfound] at htold
    obtain ⟨report, hreport, htells⟩ := htold
    rw [hreport] at hopened
    have hstart := start_of_lines hlines hfaults hform hname hopened rfl rfl rfl rfl
    have huncaught : (start (.ofCondition c nestingLimit) table).journal.uncaught? =
        (some report).filter fun r => !r.category.isOwn := by
      rw [hstart]
      exact List.findSome?_singleton ..
    refine ⟨report, htells, ?_⟩
    rw [Finds]
    cases hown : report.category.isOwn with
    | true =>
      rw [Option.filter_some, hown] at huncaught
      exact ⟨_, run_eq_ok_iff.mpr ⟨huncaught, hstart⟩, rfl, rfl⟩
    | false =>
      rw [Option.filter_some, hown] at huncaught
      exact run_eq_error_iff.mpr huncaught

/-- What a run finds of the condition of an `#if` is what is found of it on its own, on a stack that is as
deep or deeper. Only a condition that is nested too deep for the run may be decided there. -/
theorem run_ofCondition (table : Table) (c : String) (nestingLimit extra : Nat)
    (hline : '\n' ∉ c.toList) (hends : ¬ GoesOn c.toList)
    (hlexed : ∃ ts, Source.tokens { text := c } = .ok ts) :
    Finds (run (.ofCondition c nestingLimit) table) (conditionHolds table c (nestingLimit + extra)) ∨
      0 < extra ∧ ∃ report, conditionHolds table c nestingLimit = .error report ∧
        report.message = ConditionFault.nestedTooDeeply.message ∧
        Finds (run (.ofCondition c nestingLimit) table) (.error report) := by
  obtain ⟨ts, hts⟩ := hlexed
  have hfinds := finds_ofCondition table nestingLimit hline hends hts
  have halone := conditionHolds_eq_outcome hts table
  obtain hsame | ⟨hextra, hnested⟩ := Expander.outcome_add { table } nestingLimit extra ts
  · have hdeeper := halone (nestingLimit + extra)
    rw [hsame] at hdeeper
    refine .inl ?_
    cases hfound : Expander.outcome { table } nestingLimit ts with
    | ok value =>
      rw [hfound] at hdeeper hfinds
      rwa [hdeeper]
    | error cause =>
      rw [hfound] at hdeeper hfinds
      obtain ⟨report, hreport, htells⟩ := hdeeper
      obtain ⟨report', htells', hran⟩ := hfinds
      rw [hreport]
      exact hran.congr_report htells' htells
  · have hrefused := halone nestingLimit
    rw [hnested] at hrefused hfinds
    obtain ⟨report, hreport, htells⟩ := hrefused
    obtain ⟨report', htells', hran⟩ := hfinds
    exact .inr ⟨hextra, report, hreport, htells.message, hran.congr_report htells' htells⟩

/-- The tokens of `__LINE__==1`. -/
def lineTest : List Token :=
  [wordAt "__LINE__" 1, markAt "==" 9, ⟨.number, "1", ⟨"<input>", 1, 11⟩, ∅, false⟩]

/-- The tokens of `__LINE__==1` in the first line, expanded. -/
def expandedLineTest : List Token :=
  [⟨.number, "1", ⟨"<input>", 1, 1⟩, HideSet.insert ∅ "__LINE__", false⟩, markAt "==" 9,
    ⟨.number, "1", ⟨"<input>", 1, 11⟩, ∅, false⟩]

/-- The line that a macro stands for is the same behind an `#if`, though the column is not. -/
theorem run_ofCondition_line :
    '\n' ∉ "__LINE__==1".toList ∧ ¬ GoesOn "__LINE__==1".toList ∧
      (∃ ts, Source.tokens { text := "__LINE__==1" } = .ok ts) ∧
      Finds (run (.ofCondition "__LINE__==1") (Table.withBuiltins ∅)) (.ok true) := by
  have hline : '\n' ∉ "__LINE__==1".toList := by decide
  have hends : ¬ GoesOn "__LINE__==1".toList := by
    rw [GoesOn]
    decide
  have htokens : Source.tokens { text := "__LINE__==1" } = .ok lineTest := by cbv
  have hresolve : Defined.resolve (Table.withBuiltins ∅).isDefined lineTest = .ok lineTest := by cbv
  have hhalted : (Machine.step { table := Table.withBuiltins ∅ })^[6] (Machine.start lineTest) =
      .halted (.ok ⟨expandedLineTest.reverse, []⟩) := by cbv
  have hvalue : (evaluate { isDefined := (Table.withBuiltins ∅).isDefined } expandedLineTest).result =
      .ok ⟨1, false⟩ := by cbv
  have hexpand : Expander.expand { table := Table.withBuiltins ∅ } lineTest =
      .ok ⟨expandedLineTest, []⟩ := Machine.expand_of_halted 6 hhalted
  have hholds : conditionHolds (Table.withBuiltins ∅) "__LINE__==1" = .ok true := by
    simp only [conditionHolds, htokens, hresolve, hexpand, hvalue]
    rfl
  have hrun := run_ofCondition (Table.withBuiltins ∅) "__LINE__==1" usualNestingLimit 0 hline hends
    ⟨_, htokens⟩
  rw [Nat.add_zero, hholds] at hrun
  exact ⟨hline, hends, ⟨_, htokens⟩, hrun.resolve_right fun h => absurd h.1 (Nat.lt_irrefl 0)⟩

/-! ## A number that is too long -/

theorem eq_one_of_mem_ones {n : Nat} {d : Char}
    (h : d ∈ (String.ofList (List.replicate n '1')).toList) : d = '1' := by
  rw [String.toList_ofList] at h
  exact List.eq_of_mem_replicate h

theorem not_mem_newline_longNumber : '\n' ∉ longNumber.toList := fun h =>
  absurd (eq_one_of_mem_ones h) (by decide)

theorem not_goesOn_longNumber : ¬ GoesOn longNumber.toList := fun h =>
  have hmem : '\\' ∈ longNumber.toList :=
    h.elim (fun h => h.subset List.mem_cons_self) (fun h => h.subset List.mem_cons_self)
  absurd (eq_one_of_mem_ones hmem) (by decide)

/-- The number is one token. -/
theorem tokens_longNumber : ∃ t, Source.tokens { text := longNumber } = .ok [t] ∧
    t.form = (.number, longNumber) := by
  have hdigits : Numeral (List.replicate 4301 '1') (positional 10 (List.replicate 4301 '1')) :=
    .decimal (by decide) fun d hd => by
      rw [List.eq_of_mem_replicate (n := 4301) hd, Char.isDigit]
      decide
  have hread := exists_tokens_of_numeral hdigits (.size (l := []) List.mem_cons_self)
  rwa [List.append_nil] at hread

theorem outcome_longNumber {e : Expander} {nestingLimit : Nat} {t : Token}
    (h : t.form = (.number, longNumber)) :
    e.outcome nestingLimit [t] = .error (some (.tooManyDigits 4301)) := by
  rw [Expander.outcome_number (congrArg Prod.fst h), show t.text = longNumber from congrArg Prod.snd h,
    integer_longNumber]
  rfl

/-- The same error comes of a number that is too long, whether it is a condition on its own or behind an
`#if`: no run records it, and there is no verdict. -/
theorem run_ofCondition_longNumber :
    '\n' ∉ longNumber.toList ∧ ¬ GoesOn longNumber.toList ∧
      (∃ ts, Source.tokens { text := longNumber } = .ok ts) ∧
      ∃ report, conditionHolds ∅ longNumber = .error report ∧
        run (.ofCondition longNumber) ∅ = .error report := by
  obtain ⟨t, htokens, hform⟩ := tokens_longNumber
  have hholds := conditionHolds_eq_outcome htokens ∅ usualNestingLimit
  have hfinds := finds_ofCondition ∅ usualNestingLimit not_mem_newline_longNumber not_goesOn_longNumber
    htokens
  rw [outcome_longNumber hform] at hholds hfinds
  obtain ⟨report, hreport, htells⟩ := hholds
  obtain ⟨report', htells', hran⟩ := hfinds
  have hran := hran.congr_report htells' htells
  rw [Finds, htells.isOwn] at hran
  exact ⟨not_mem_newline_longNumber, not_goesOn_longNumber, ⟨_, htokens⟩, report, hreport, hran⟩

end Run

end CPreprocessor
