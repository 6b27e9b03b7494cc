import CPreprocessor.Proofs.Condition.Checked
import CPreprocessor.Proofs.Directive.PrintedText
import CPreprocessor.Proofs.Directive.Uncaught
import CPreprocessor.Proofs.Expansion.Checked
import CPreprocessor.Proofs.Macro.Checked
import CPreprocessor.Proofs.Macro.Reachable
import CPreprocessor.Proofs.Source.Checked

/-!
# Checked runs

`Run.startChecked` runs over a source as `Run.start` does, with checked reading, definitions,
expansions and conditions, and with handlers that take only the errors they are for. From every table
that can be reached, all that a run uses is there and all errors are handled (`Run.startChecked_eq`).
-/

namespace CPreprocessor

variable {u : SourceUnit} {table : Table} {line rest tokens : List Token} {mark : Location}

/-- A handler for the errors of expansion leaves none of them out. -/
theorem ExpansionFault.expansion_mem_ancestry (f : ExpansionFault) :
    f.category.ancestry.contains .expansion = true := by
  cases f <;> rfl

namespace SourceUnit

/-- The expansion of tokens, with its errors as reports. -/
def expandChecked (u : SourceUnit) (table : Table) (tokens : List Token) :
    Except (Stop Report) Expander.Expansion :=
  reraising (·.reportIn u.listing) ((u.expander table).expandChecked tokens)

/-- The value of a condition, and the undefined names in it that were evaluated. -/
def evaluateChecked (u : SourceUnit) (table : Table) (tokens : List Token)
    (location : Option Location) : Except (Stop Report) (Except Report Value × List Token) :=
  match Defined.resolve table.isDefined tokens with
  | .error fault => .ok (.error (ConditionFault.report fault none), [])
  | .ok resolved =>
    match u.expandChecked table resolved with
    | .error .outOfRange => .error .outOfRange
    | .error (.raised report) => .ok (.error report, [])
    | .ok expansion =>
      let setting : Setting :=
        { isDefined := table.isDefined, location, nestingLimit := u.setup.nestingLimit }
      (CPreprocessor.evaluateChecked setting expansion.tokens).map fun evaluation =>
        (evaluation.result.mapError (ConditionFault.report · (location.bind u.quote?)),
          evaluation.undefined)

end SourceUnit

namespace Run

variable {r : Run}

/-! ## Steps -/

/-- Expands a line on its own and puts it out, or enters why it cannot be expanded. -/
def expandLineChecked (u : SourceUnit) (r : Run) (line : List Token) : Except (Stop Report) Run :=
  catching .expansion ((u.expandChecked r.table line).map fun expansion => r.emit u expansion.tokens)
    fun report => .ok (r.record report)

/-- Expands the lines that wait, together if possible, and each on its own if not. -/
def flushChecked (r : Run) (u : SourceUnit) : Except (Stop Report) Run :=
  let lines := r.pending
  let r := { r with pending := [] }
  if lines.isEmpty then .ok r
  else
    catching .expansion
      ((u.expandChecked r.table lines.flatten).map fun expansion => r.emit u expansion.tokens)
      fun _ => lines.foldlM (expandLineChecked u) r

/-- Whether a condition holds. -/
def testChecked (r : Run) (u : SourceUnit) (rest : List Token) (mark : Location) :
    Except (Stop Report) (Run × Bool) :=
  match u.evaluateChecked r.table rest mark with
  | .error stop => .error stop
  | .ok (result, undefined) =>
    let warnOf (r : Run) (t : Token) : Run :=
      r.warn ("'" ++ t.text ++ "' is not defined, evaluates to 0") t.location
    let r := if u.setup.warnUndefined then undefined.foldl warnOf r else r
    catching .preprocessor ((raising result).map fun value => (r, value.truthy)) fun report =>
      .ok (r.record report, false)

/-- `#if`, `#ifdef` and `#ifndef`. Only a live `#if` has a condition that is evaluated. -/
def openFrameChecked (r : Run) (u : SourceUnit) (opening : Opening) (rest : List Token)
    (mark : Location) : Except (Stop Report) Run :=
  if r.isLive && opening = .ifTrue then
    let frames := { opening, branch := .awaiting, location := mark } :: r.frames
    (testChecked { r with frames } u rest mark).map fun (r, taken) =>
      r.select (.opening opening) mark taken rest
  else .ok (r.openFrame u opening rest mark)

/-- `#elif` in an open frame. Its condition is evaluated only while no branch was taken. -/
def elseIfChecked (r : Run) (u : SourceUnit) (frame : Frame) (rest : List Token) (mark : Location) :
    Except (Stop Report) Run :=
  match frame.branch with
  | .awaiting =>
    (r.testChecked u rest mark).map fun (r, taken) => r.select .elseIf mark taken rest
  | _ => .ok (r.elseIf u frame rest mark)

def conditionalChecked (r : Run) (u : SourceUnit) (directive : Conditional) (rest : List Token)
    (mark : Location) : Except (Stop Report) Run :=
  match directive, r.frames with
  | .opening opening, _ => r.openFrameChecked u opening rest mark
  | .elseIf, frame :: _ =>
    if frame.elseSeen then .ok (r.conditional u .elseIf rest mark)
    else r.elseIfChecked u frame rest mark
  | directive, _ => .ok (r.conditional u directive rest mark)

/-- `#define`. It changes the table once the definition is read. -/
def defineChecked (r : Run) (rest : List Token) (mark : Location) : Except (Stop Report) Run :=
  catching .preprocessor
    ((reraising DefinitionFault.report (Definition.parseChecked rest mark false)).map fun _ =>
      r.define rest mark)
    fun report => .ok (r.record report)

/-- Carries out a directive. -/
def directiveChecked (r : Run) (u : SourceUnit) (mark name : Token) (rest : List Token) :
    Except (Stop Report) Run :=
  match Keyword.ofText? name.text with
  | some (.conditional c) => r.conditionalChecked u c rest mark.location
  | some .define => if r.isLive then r.defineChecked rest mark.location else .ok r
  | _ => .ok (r.directive u mark name rest)

/-- Takes a line. A line that is no text begins with the first token in it that is not layout. -/
def takeLineChecked (r : Run) (u : SourceUnit) (line : List Token) : Except (Stop Report) Run :=
  match LineForm.of line with
  | .text => .ok (if r.isLive then { r with pending := r.pending ++ [line] } else r)
  | .nothing => r.flushChecked u
  | .invalid _ name => do
    let r ← r.flushChecked u
    let mark ← found (significant line).head?
    return if r.isLive then r.refuse u .invalid name.location mark.location else r
  | .directive _ name rest => do
    let r ← r.flushChecked u
    let mark ← found (significant line).head?
    r.directiveChecked u mark name rest

/-- Takes lines until the run is stopped. -/
def takeLinesChecked (u : SourceUnit) (r : Run) : List (List Scanned) → Except (Stop Report) Run
  | [] => .ok r
  | line :: lines =>
    let r := r.noteFaults u line
    if r.aborted then .ok r
    else
      match r.takeLineChecked u (line.map Scanned.token) with
      | .error stop => .error stop
      | .ok r => takeLinesChecked u r.checkJournal lines

/-- Ends a run at the end of its source. -/
def finishChecked (r : Run) (u : SourceUnit) : Except (Stop Report) Run :=
  if r.aborted then .ok r
  else
    (r.flushChecked u).map fun r =>
      match r.frames with
      | [] => r
      | frame :: _ =>
        r.abort (DirectiveFault.report ⟨.unterminated frame.opening.name, frame.location⟩
          (u.quote? frame.location))

/-- Runs over a source from a table. -/
def startChecked (u : SourceUnit) (table : Table) : Except (Stop Report) Run := do
  let (read, _) ← u.source.tokenizeChecked true
  let r : Run := { table, journal := { limit := u.setup.maxErrors } }
  let r ← takeLinesChecked u r (linesFrom [] read)
  r.finishChecked u

end Run

/-! ## Expansion and evaluation -/

/-- Whether tokens are tokens of sources, in lines with numbers from zero on. -/
def IsPlaced (tokens : List Token) : Prop := ∀ t ∈ tokens, t.IsScanned ∧ 0 ≤ t.location.line

namespace SourceUnit

theorem expandChecked_eq (htable : table.Reachable) (tokens : List Token) :
    u.expandChecked table tokens =
      raising (((u.expander table).expand tokens).mapError (·.reportIn u.listing)) := by
  have hcollects : ∀ d ∈ (u.expander table).table.definitions, d.isVariadic = true → d.parameters ≠ [] :=
    fun d hd => (htable.sound d hd).collects
  rw [expandChecked, Expander.expandChecked_eq hcollects]
  cases (u.expander table).expand tokens with
  | error error => rfl
  | ok expansion => rfl

theorem catching_expandChecked {α : Type} (htable : table.Reachable) (tokens : List Token)
    (f : Expander.Expansion → α) (handler : Report → Except (Stop Report) α) :
    catching .expansion ((u.expandChecked table tokens).map f) handler =
      match (u.expander table).expand tokens with
      | .ok expansion => .ok (f expansion)
      | .error error => handler (error.reportIn u.listing) := by
  rw [expandChecked_eq htable]
  cases (u.expander table).expand tokens with
  | ok expansion => rfl
  | error error => exact if_pos error.fault.expansion_mem_ancestry

theorem evaluateChecked_eq (htable : table.Reachable) (hrest : IsPlaced rest) :
    u.evaluateChecked table rest mark = .ok (u.evaluate table rest mark) := by
  unfold evaluateChecked evaluate
  cases hresolve : Defined.resolve table.isDefined rest with
  | error fault => rfl
  | ok resolved =>
    have hresolved : ∀ t ∈ resolved, t.Lexed ∧ 0 ≤ t.location.line := by
      intro t ht
      rcases Defined.mem_of_resolve hresolve ht with ht | ⟨v, hv, answered, rfl⟩
      · exact ⟨(hrest t ht).1.lexed, (hrest t ht).2⟩
      · refine ⟨?_, (hrest v hv).2⟩
        cases answered with
        | false => exact Token.lexed_number (Int.le_refl 0) rfl rfl
        | true => exact Token.lexed_number Int.one_nonneg rfl rfl
    have hlasts := Expander.expand_lasting (e := u.expander table) (.lexed htable.bodies) hresolved
    dsimp only
    rw [expandChecked_eq htable]
    cases hexpand : (u.expander table).expand resolved with
    | error error => rfl
    | ok expansion =>
      rw [hexpand] at hlasts
      simp only [Except.mapError, raising_ok]
      rw [CPreprocessor.evaluateChecked_eq _ fun t ht => (hlasts t ht).1.1]
      rfl

end SourceUnit

namespace LineForm

/-- The token that a directive begins with. -/
theorem head?_significant_of {afterMark : List Token} {t : Token}
    (h : (line.dropWhile fun t => t.kind = .whitespace || t.kind = .comment) = t :: afterMark)
    (hmark : t.isPunctuator "#" = true) : (significant line).head? = some t := by
  have hbefore : (line.takeWhile fun t => t.kind = .whitespace || t.kind = .comment).filter
      (fun t => !t.isLayout) = [] := by
    refine List.filter_eq_nil_iff.mpr fun v hv => ?_
    have hkind := List.all_eq_true.mp (List.all_takeWhile ..) v hv
    rw [Bool.or_eq_true, decide_eq_true_eq, decide_eq_true_eq] at hkind
    rcases hkind with hkind | hkind <;> simp [Token.isLayout, hkind, Kind.isLayout]
  have hlayout : t.isLayout = false := by
    rw [Token.isLayout, of_decide_eq_true (Bool.and_eq_true_iff.mp hmark).1]
    rfl
  rw [significant, ← List.takeWhile_append_dropWhile
    (p := fun t : Token => t.kind = .whitespace || t.kind = .comment) (l := line), h,
    List.filter_append, hbefore, List.nil_append, List.filter_cons_of_pos (by rw [hlayout]; rfl)]
  rfl

theorem head?_significant_of_directive {mark name : Token}
    (h : LineForm.of line = .directive mark name rest) :
    (significant line).head? = some mark := by
  unfold LineForm.of at h
  split at h
  · cases h
  rename_i heq
  split at h
  · rename_i hmark
    split at h
    · cases h
    split at h
    · cases h
      exact head?_significant_of heq hmark
    split at h
    · cases h
    · cases h
  · cases h

theorem head?_significant_of_invalid {mark name : Token} (h : LineForm.of line = .invalid mark name) :
    (significant line).head? = some mark := by
  unfold LineForm.of at h
  split at h
  · cases h
  rename_i heq
  split at h
  · rename_i hmark
    split at h
    · cases h
    split at h
    · cases h
    split at h
    · cases h
    · cases h
      exact head?_significant_of heq hmark
  · cases h

end LineForm

namespace Run

variable {r : Run}

/-! ## All that a step uses is there -/

theorem expandLineChecked_eq (hr : r.table.Reachable) (line : List Token) :
    expandLineChecked u r line = .ok (expandLine u r line) := by
  rw [expandLineChecked, SourceUnit.catching_expandChecked hr, expandLine]
  cases (u.expander r.table).expand line with
  | ok expansion => rfl
  | error error => rfl

theorem table_expandLine (u : SourceUnit) (r : Run) (line : List Token) :
    (expandLine u r line).table = r.table := by
  unfold expandLine
  split <;> rfl

theorem foldlM_expandLineChecked (hr : r.table.Reachable) (lines : List (List Token)) :
    lines.foldlM (expandLineChecked u) r = .ok (lines.foldl (expandLine u) r) := by
  induction lines generalizing r with
  | nil => rfl
  | cons line lines ih =>
    rw [List.foldlM_cons, expandLineChecked_eq hr]
    exact ih (by rwa [table_expandLine])

theorem flushChecked_eq (hr : r.table.Reachable) (u : SourceUnit) :
    r.flushChecked u = .ok (r.flush u) := by
  simp only [flushChecked, flush]
  split
  · rfl
  · rw [SourceUnit.catching_expandChecked hr]
    cases (u.expander r.table).expand r.pending.flatten with
    | ok expansion => rfl
    | error error => exact foldlM_expandLineChecked (r := { r with pending := [] }) hr r.pending

theorem testChecked_eq (hr : r.table.Reachable) (hrest : IsPlaced rest) (u : SourceUnit)
    (mark : Location) :
    r.testChecked u rest mark = settled (u.escape? r.table rest mark) (r.test u rest mark) := by
  simp only [testChecked, test, SourceUnit.escape?, SourceUnit.evaluateChecked_eq hr hrest]
  cases (u.evaluate r.table rest mark).1 with
  | ok value => rfl
  | error report =>
    simp only [raising, Except.mapError, Except.map]
    rw [catching_preprocessor]
    cases report.category.isOwn with
    | false => rfl
    | true => rfl

theorem openFrameChecked_eq (hr : r.table.Reachable) (hrest : IsPlaced rest) (u : SourceUnit)
    (opening : Opening) (mark : Location) :
    r.openFrameChecked u opening rest mark =
      settled (r.escape? u (.opening opening) rest mark) (r.openFrame u opening rest mark) := by
  unfold openFrameChecked
  split
  · rename_i hcondition
    obtain ⟨hlive, hopening⟩ := Bool.and_eq_true_iff.mp hcondition
    cases of_decide_eq_true hopening
    have htest := testChecked_eq hr hrest u mark (r := { r with frames :=
      { opening := .ifTrue, branch := .awaiting, location := mark } :: r.frames })
    simp only [openFrame, escape?, hlive, if_true, htest]
    exact settled_map ..
  · rename_i hcondition
    have hnone : r.escape? u (.opening opening) rest mark = none := by
      cases opening with
      | ifTrue =>
        have hlive : ¬ r.isLive = true := fun hlive => hcondition (by rw [hlive]; rfl)
        exact if_neg hlive
      | _ => rfl
    rw [hnone, settled_none]

theorem elseIfChecked_eq (hr : r.table.Reachable) (hrest : IsPlaced rest) (u : SourceUnit)
    (frame : Frame) (mark : Location) :
    r.elseIfChecked u frame rest mark =
      settled (if frame.branch = .awaiting then u.escape? r.table rest mark else none)
        (r.elseIf u frame rest mark) := by
  unfold elseIfChecked
  split
  · rename_i hbranch
    simp only [testChecked_eq hr hrest, elseIf, hbranch, if_true]
    exact settled_map ..
  · rename_i hbranch
    rw [if_neg hbranch, settled_none]

theorem conditionalChecked_eq (hr : r.table.Reachable) (hrest : IsPlaced rest) (u : SourceUnit)
    (directive : Conditional) (mark : Location) :
    r.conditionalChecked u directive rest mark =
      settled (r.escape? u directive rest mark) (r.conditional u directive rest mark) := by
  unfold conditionalChecked
  split
  · rw [openFrameChecked_eq hr hrest, conditional]
  · rename_i frame outer hframes
    unfold conditional escape?
    simp only [hframes]
    split
    · rename_i helse
      rw [helse]
      rfl
    · rename_i helse
      rw [elseIfChecked_eq hr hrest, Bool.eq_false_iff.mpr helse]
      simp
  · rename_i hopening helse
    unfold escape?
    split
    · exact (hopening _ rfl).elim
    · rename_i hframes
      exact (helse _ _ rfl hframes).elim
    · rfl

theorem defineChecked_eq (r : Run) (rest : List Token) (mark : Location) :
    r.defineChecked rest mark = .ok (r.define rest mark) := by
  rw [defineChecked, Definition.parseChecked_eq, define]
  cases Definition.parse rest mark false with
  | ok d => rfl
  | error fault => exact catching_preprocessor ..

/-- The error that escapes from the condition of a directive, if it has one. -/
theorem directiveChecked_eq (hr : r.table.Reachable) (hrest : IsPlaced rest) (u : SourceUnit)
    (mark name : Token) :
    r.directiveChecked u mark name rest =
      settled
        (match Keyword.ofText? name.text with
        | some (.conditional c) => r.escape? u c rest mark.location
        | _ => none)
        (r.directive u mark name rest) := by
  unfold directiveChecked
  split
  · rename_i c hkeyword
    rw [conditionalChecked_eq hr hrest, directive, hkeyword]
  · rename_i hkeyword
    rw [defineChecked_eq, directive, hkeyword]
    simp only [settled_none]
    split
    · rfl
    · rfl
  · rename_i hconditional _
    split
    · rename_i c hkeyword
      exact absurd hkeyword (hconditional c)
    · rfl

theorem takeLineChecked_eq (hr : r.table.Reachable) (hline : IsPlaced line) (u : SourceUnit) :
    r.takeLineChecked u line = settled (r.lineEscape? u line) (r.takeLine u line) := by
  have hflushed : (r.flush u).table.Reachable := by rwa [table_flush]
  rw [← lineEscape?_congr (table_flush u r) (flush_spec u r).2.1]
  unfold takeLineChecked takeLine lineEscape?
  cases hform : LineForm.of line with
  | text => rfl
  | nothing => exact flushChecked_eq hr u
  | invalid mark name =>
    dsimp only
    rw [flushChecked_eq hr, LineForm.head?_significant_of_invalid hform]
    rfl
  | directive mark name rest =>
    dsimp only
    rw [flushChecked_eq hr, LineForm.head?_significant_of_directive hform]
    exact directiveChecked_eq hflushed (fun t ht => hline t ((LineForm.mem_of hform).2.2 t ht)) u mark
      name

/-! ## Tables stay reachable -/

theorem reachable_define (hr : r.table.Reachable) (hrest : ∀ t ∈ rest, t.IsScanned) (mark : Location) :
    (r.define rest mark).table.Reachable := by
  unfold Run.define
  split
  · exact hr
  · rename_i d hd
    split
    · exact hr
    · have hdefined : (r.table.define d).Reachable := hr.define ⟨rest, mark, false, hrest, hd⟩
      simp only
      split
      · exact hdefined
      · exact hdefined

theorem reachable_undefine (hr : r.table.Reachable) (u : SourceUnit) (mark : Location) :
    (r.undefine u rest mark).table.Reachable := by
  unfold Run.undefine
  split
  · exact hr
  · rename_i name extra hname
    have hnoted : (r.warnExtra "undef" extra).table = r.table :=
      (Keeps.of_onlyNotes (.warnExtra ..)).table
    simp only
    split
    · exact .undefine (hnoted ▸ hr) _ _
    · exact .undefine (hnoted ▸ hr) _ _

theorem reachable_directive (hr : r.table.Reachable) (hrest : ∀ t ∈ rest, t.IsScanned)
    (u : SourceUnit) (mark name : Token) : (r.directive u mark name rest).table.Reachable := by
  unfold Run.directive
  split
  · rename_i c hkeyword
    have hkept : (r.conditional u c rest mark.location).table = r.table :=
      (Keeps.conditional u r c).table
    rwa [hkept]
  split
  · split
    · exact reachable_define hr hrest _
    · exact reachable_undefine hr u _
    all_goals exact hr
  · exact hr

theorem reachable_takeLine (hr : r.table.Reachable) (hline : ∀ t ∈ line, t.IsScanned)
    (u : SourceUnit) : (r.takeLine u line).table.Reachable := by
  have hflushed : (r.flush u).table.Reachable := by rwa [table_flush]
  unfold Run.takeLine
  split
  · split
    · exact hr
    · exact hr
  · exact hflushed
  · simp only
    split
    · exact hflushed
    · exact hflushed
  · rename_i mark name rest hform
    exact reachable_directive hflushed (fun t ht => hline t ((LineForm.mem_of hform).2.2 t ht)) u mark
      name

/-! ## Runs -/

theorem reachable_takeLines {lines : List (List Scanned)} (hr : r.table.Reachable)
    (hlines : ∀ line ∈ lines, IsPlaced (line.map Scanned.token)) :
    (takeLines u r lines).table.Reachable := by
  induction lines generalizing r with
  | nil => exact hr
  | cons line lines ih =>
    obtain ⟨hline, hlines⟩ := List.forall_mem_cons.mp hlines
    have hnoted : (r.noteFaults u line).table.Reachable := by
      rwa [(Keeps.of_onlyNotes (.noteFaults (u := u) r line)).table]
    rw [takeLines]
    split
    · exact hnoted
    · have htaken := reachable_takeLine hnoted (fun t ht => (hline t ht).1) u
      exact ih (by rwa [(Keeps.of_onlyNotes (.checkJournal _)).table]) hlines

/-- A run that takes lines of sources uses only what is there, until an error escapes. -/
theorem takeLinesChecked_eq {lines : List (List Scanned)} (hr : r.table.Reachable)
    (hjournal : r.journal.uncaught? = none)
    (hlines : ∀ line ∈ lines, IsPlaced (line.map Scanned.token)) :
    takeLinesChecked u r lines =
      settled (takeLines u r lines).journal.uncaught? (takeLines u r lines) := by
  induction lines generalizing r with
  | nil =>
    rw [takeLines, hjournal]
    rfl
  | cons line lines ih =>
    obtain ⟨hline, hlines⟩ := List.forall_mem_cons.mp hlines
    have hnoted : (r.noteFaults u line).table.Reachable := by
      rwa [(Keeps.of_onlyNotes (.noteFaults (u := u) r line)).table]
    have hquiet : (r.noteFaults u line).journal.uncaught? = none :=
      Eq.trans (Handles.noteFaults r line) hjournal
    simp only [takeLinesChecked, takeLines]
    split
    · rw [hquiet]
      rfl
    · have htaken := reachable_takeLine hnoted (fun t ht => (hline t ht).1) u
      have hescape := uncaught?_takeLine u (r.noteFaults u line) (line.map Scanned.token)
      rw [hquiet, Option.none_or, ← Handles.checkJournal ((r.noteFaults u line).takeLine u _)] at hescape
      rw [takeLineChecked_eq hnoted hline]
      cases herror : (r.noteFaults u line).lineEscape? u (line.map Scanned.token) with
      | none =>
        exact ih (by rwa [(Keeps.of_onlyNotes (.checkJournal _)).table]) (hescape.trans herror) hlines
      | some report =>
        rw [(Extends.takeLines _ lines).uncaught? (hescape.trans herror)]
        rfl

theorem finishChecked_eq (hr : r.table.Reachable) (u : SourceUnit) :
    r.finishChecked u = .ok (r.finish u) := by
  simp only [finishChecked, finish]
  split
  · rfl
  · rw [flushChecked_eq hr]
    rfl

/-- From every table that can be reached, a run over any text with any options uses nothing that is not
there, and every error of this library is handled. So it comes to its end, but for a number in a condition
that is too long to be converted. -/
theorem startChecked_eq (text file : String) (setup : Setup) (htable : table.Reachable) :
    startChecked { source := { text, file }, setup } table =
        raising (run { source := { text, file }, setup } table) ∧
      ∀ report, run { source := { text, file }, setup } table = .error report →
        ∃ count, Text.digitLimit < count ∧ report =
          { category := .conversion, message := (ConditionFault.tooManyDigits count).message } := by
  refine ⟨?_, fun report => exists_of_run_eq_error⟩
  have hplaced : ∀ line ∈ Source.logicalLines { text, file }, IsPlaced (line.map Scanned.token) := by
    intro line hline t ht
    obtain ⟨read, hread, rfl⟩ := List.mem_map.mp ht
    have hscan := Source.mem_scan_of_mem_logicalLines hline hread
    exact ⟨⟨_, read, hscan, rfl⟩,
      Int.le_trans (Int.zero_le_ofNat 1) (Source.line_of_mem_scan hscan).1⟩
  have hinitial : ({ table, journal := { limit := setup.maxErrors } } : Run).table.Reachable := htable
  have hlines :=
    takeLinesChecked_eq (u := { source := { text, file }, setup }) hinitial rfl hplaced
  have hreachable :=
    reachable_takeLines (u := { source := { text, file }, setup }) hinitial hplaced
  rw [startChecked, Source.tokenizeChecked_eq, Source.tokenize_eq, Source.outcome_lenient, ok_bind]
  dsimp only
  rw [← Source.logicalLines, hlines, run, start, Handles.finish]
  cases (takeLines _ _ _).journal.uncaught? with
  | some report => rfl
  | none => exact finishChecked_eq hreachable _

/-- The macro that puts 0 in front of its arguments, as `#define CALL(f, ...) f(0, ##__VA_ARGS__)`
defines it. -/
def callMacro : Definition where
  name := "CALL"
  shape := .function ["f", "__VA_ARGS__"] true
  replacement :=
    let at_ (kind : Kind) (text : String) (column : Int) : Token :=
      { kind, text, location := ⟨"<command line>", 1, column⟩ }
    [at_ .identifier "f" 14, at_ .punctuator "(" 15, at_ .number "0" 16, at_ .punctuator "," 17,
      at_ .whitespace " " 18, at_ .punctuator "##" 19, at_ .identifier "__VA_ARGS__" 21,
      at_ .punctuator ")" 32]
  location := some ⟨"<command line>", 1, 1⟩

/-- An invocation of `CALL` without any of the arguments that its last parameter collects. -/
def callLine : List Token :=
  let at_ (kind : Kind) (text : String) (column : Int) : Token :=
    { kind, text, location := ⟨"<input>", 1, column⟩ }
  [at_ .identifier "CALL" 1, at_ .punctuator "(" 5, at_ .identifier "g" 6, at_ .punctuator ")" 7,
    at_ .newline "\n" 8]

/-- What comes of that invocation. -/
def callOutput : List Token :=
  let from_ (kind : Kind) (text : String) (column : Int) : Token :=
    { kind, text, location := ⟨"<input>", 1, column⟩, hide := HideSet.insert ∅ "CALL" }
  [from_ .identifier "g" 6, from_ .punctuator "(" 1, from_ .number "0" 1, from_ .punctuator ")" 1,
    { kind := .newline, text := "\n", location := ⟨"<input>", 1, 8⟩ }]

theorem startChecked_eq_call :
    (Table.define ∅ callMacro).Reachable ∧
      (startChecked { source := { text := "CALL(g)\n" } } (Table.define ∅ callMacro)).map Run.text =
        .ok "g(0)\n" := by
  have hdefined : Table.defineSource ∅
      { text := "CALL(f, ...) f(0, ##__VA_ARGS__)", file := "<command line>" } =
        .ok (Table.define ∅ callMacro) := by cbv
  have hreachable : (Table.define ∅ callMacro).Reachable := .defineSource .empty hdefined
  have hlines : takeLines { source := { text := "CALL(g)\n" } }
      { table := Table.define ∅ callMacro, journal := { limit := 100 } }
      (Source.logicalLines { text := "CALL(g)\n" }) =
        { table := Table.define ∅ callMacro, pending := [callLine], journal := { limit := 100 } } := by
    cbv
  have hexpand : Expander.expand { table := Table.define ∅ callMacro } callLine =
      .ok ⟨callOutput, ["CALL"]⟩ := by
    have hhalted : (Machine.step { table := Table.define ∅ callMacro })^[9]
        (Machine.start callLine) = .halted (.ok ⟨callOutput.reverse, ["CALL"]⟩) := by cbv
    exact Machine.expand_of_halted 9 hhalted
  obtain ⟨houtput, hjournal⟩ := start_of_pending hlines hexpand
  have hrun : run { source := { text := "CALL(g)\n" } } (Table.define ∅ callMacro) =
      .ok (start { source := { text := "CALL(g)\n" } } (Table.define ∅ callMacro)) :=
    run_eq_ok_iff.mpr ⟨by rw [hjournal]; rfl, rfl⟩
  refine ⟨hreachable, ?_⟩
  rw [(startChecked_eq "CALL(g)\n" "<input>" {} hreachable).1, hrun]
  refine congrArg Except.ok ?_
  rw [Run.text, houtput]
  decide +kernel

end Run

end CPreprocessor
