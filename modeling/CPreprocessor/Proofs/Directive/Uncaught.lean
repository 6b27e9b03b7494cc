import CPreprocessor.Proofs.Condition.FaultPlace
import CPreprocessor.Proofs.Directive.Selection

/-!
# Errors that no handler takes

A run enters every error of this library and goes on. The one other error is that of a number in a
condition that is too long to be converted, which ends a run without a result. Here the first such error in
a journal is traced back to the condition it comes from: a line adds the error of the condition that it
evaluates, if any (`Run.uncaught?_take`), and no error but that (`Run.exists_of_run_eq_error`).
-/

namespace CPreprocessor

variable {u : SourceUnit} {table : Table} {report : Report} {rest : List Token} {mark : Location}

/-- The error of a condition that no handler takes. -/
def SourceUnit.escape? (u : SourceUnit) (table : Table) (rest : List Token) (mark : Location) :
    Option Report :=
  match (u.evaluate table rest mark).1 with
  | .ok _ => none
  | .error report => if report.category.isOwn then none else some report

/-! ## Errors that are of this library -/

theorem DirectiveFault.isOwn_report (f : Located DirectiveFault) (line : Option String) :
    (DirectiveFault.report f line).category.isOwn = true := by
  obtain ⟨cause, location⟩ := f
  cases cause <;> rfl

theorem ExpansionError.isOwn_report (e : ExpansionError) (line : Option String) :
    (e.report line).category.isOwn = true := by
  obtain ⟨name, fault, location⟩ := e
  cases fault <;> rfl

/-- What is wrong with an operand of `defined` is an error of conditions. -/
theorem Defined.isOwn_of_operand {tokens : List Token} {cause : ConditionFault}
    (h : operand tokens = .error cause) : cause.category.isOwn = true := by
  unfold operand at h
  repeat' split at h
  all_goals
    cases h
    try rfl

theorem Defined.isOwn_of_resolve {isDefined : String → Bool} {tokens : List Token}
    {fault : Located ConditionFault} (h : resolve isDefined tokens = .error fault) :
    fault.cause.category.isOwn = true := by
  induction tokens using resolve.induct with
  | case1 =>
    rw [resolve] at h
    cases h
  | case2 t rest hoperator cause hcause =>
    rw [resolve, if_pos hoperator] at h
    split at h
    · rename_i cause' hcause'
      cases h
      exact isOwn_of_operand hcause'
    · rename_i hfound
      rw [hcause] at hfound
      cases hfound
  | case3 t rest hoperator name after hfound ih =>
    rw [resolve, if_pos hoperator] at h
    split at h
    · rename_i hcause
      rw [hfound] at hcause
      cases hcause
    · rename_i hfound'
      cases hfound.symm.trans hfound'
      exact ih (map_eq_error_iff.mp h)
  | case4 t rest hoperator ih =>
    rw [resolve, if_neg hoperator] at h
    exact ih (map_eq_error_iff.mp h)

/-- An error that escapes from a condition is that of a number with too many digits. -/
theorem SourceUnit.exists_of_escape? (h : u.escape? table rest mark = some report) :
    ∃ count, Text.digitLimit < count ∧
      report = { category := .conversion, message := (ConditionFault.tooManyDigits count).message } := by
  have hown : ∀ {cause : ConditionFault} {location : Option Location} {line : Option String},
      cause.category.isOwn = true →
      (ConditionFault.report ⟨cause, location⟩ line).category.isOwn = true := fun h => h
  unfold escape? at h
  split at h
  · cases h
  rename_i report' hreport
  split at h
  · cases h
  rename_i hforeign
  cases h
  unfold evaluate at hreport
  split at hreport
  · rename_i hresolve
    cases hreport
    exact absurd (hown (Defined.isOwn_of_resolve hresolve)) hforeign
  · split at hreport
    · rename_i error hexpand
      cases hreport
      exact absurd (error.isOwn_report _) hforeign
    · simp only at hreport
      cases hresult : (CPreprocessor.evaluate _ _).result with
      | ok value =>
        rw [hresult] at hreport
        cases hreport
      | error fault =>
        rw [hresult] at hreport
        cases hreport
        cases faults_evaluate hresult with
        | whole own => exact absurd (hown own) hforeign
        | token mem own => exact absurd (hown own) hforeign
        | behind mem own => exact absurd (hown own) hforeign
        | number mem kind h =>
          rcases Constant.category_of_integer h with hcategory | ⟨count, rfl⟩
          · refine absurd (hown ?_) hforeign
            rw [hcategory]
            rfl
          · exact ⟨count, (Constant.integer_eq_tooManyDigits_iff.mp h).digitLimit_lt, rfl⟩

/-! ## Journals -/

namespace Journal

/-- An entry counts if there is no such error before it. -/
theorem uncaught?_add (j : Journal) (d : Diagnostic) :
    (j.add d).uncaught? = j.uncaught?.or (d.report?.filter fun r => !r.category.isOwn) := by
  rw [uncaught?, add, List.findSome?_append]
  congr 1
  rw [List.findSome?_singleton]

theorem uncaught?_of_prefix {j j' : Journal} (h : j.entries <+: j'.entries)
    (hj : j.uncaught? = some report) : j'.uncaught? = some report := by
  obtain ⟨entries, hentries⟩ := h
  rw [uncaught?, ← hentries, List.findSome?_append]
  rw [uncaught?] at hj
  rw [hj]
  rfl

end Journal

namespace Run

variable {r r' r₁ r₂ r₃ : Run}

/-- A step all of whose errors are of this library. -/
def Handles (r r' : Run) : Prop := r'.journal.uncaught? = r.journal.uncaught?

namespace Handles

theorem of_eq (h : r₂.journal = r₁.journal) : Handles r₁ r₂ := congrArg Journal.uncaught? h

theorem refl (r : Run) : Handles r r := rfl

theorem trans (h₁ : Handles r₁ r₂) (h₂ : Handles r₂ r₃) : Handles r₁ r₃ := Eq.trans h₂ h₁

theorem foldl {α : Type} {step : Run → α → Run} (as : List α) (r : Run)
    (h : ∀ r, ∀ a ∈ as, Handles r (step r a)) : Handles r (as.foldl step r) := by
  induction as generalizing r with
  | nil => exact refl r
  | cons a as ih =>
    obtain ⟨ha, has⟩ : Handles r (step r a) ∧ ∀ r, ∀ a ∈ as, Handles r (step r a) :=
      ⟨h r a List.mem_cons_self, fun r a ha => h r a (List.mem_cons_of_mem _ ha)⟩
    exact ha.trans (ih _ has)

theorem error {fatal : Bool} (hown : report.category.isOwn = true)
    (h : r₂.journal = r₁.journal.error report fatal) : Handles r₁ r₂ := by
  rw [Handles, h, Journal.error, Journal.uncaught?_add, Diagnostic.report?, Option.filter_some, hown]
  exact Option.or_none

theorem record (r : Run) (hown : report.category.isOwn = true) : Handles r (r.record report) :=
  error hown rfl

theorem warn (r : Run) (message : String) (location : Option Location) :
    Handles r (r.warn message location) := by
  rw [Handles, Run.warn, Journal.warning, Journal.uncaught?_add]
  exact Option.or_none

theorem warnExtra (r : Run) (directive : String) (extra : List Token) :
    Handles r (r.warnExtra directive extra) := by
  cases extra with
  | nil => exact refl r
  | cons t ts => exact warn ..

theorem warnExtraInside (r : Run) (directive : Conditional) (rest : List Token) :
    Handles r (r.warnExtraInside directive rest) := by
  rw [Run.warnExtraInside]
  split
  · exact warnExtra ..
  · exact refl r

theorem expandLine (r : Run) (line : List Token) : Handles r (Run.expandLine u r line) := by
  rw [Run.expandLine]
  split
  · exact of_eq rfl
  · rename_i error _
    exact record r (error.isOwn_report _)

theorem flush (r : Run) : Handles r (r.flush u) := by
  have h : Handles r { r with pending := [] } := of_eq rfl
  simp only [Run.flush]
  split
  · exact h
  split
  · exact h.trans (of_eq rfl)
  · exact h.trans (foldl _ _ fun r line _ => expandLine r line)

theorem define (r : Run) (rest : List Token) (mark : Location) : Handles r (r.define rest mark) := by
  have set : ∀ table, Handles r { r with table } := fun table => of_eq rfl
  rw [Run.define]
  split
  · exact record r rfl
  split
  · exact warn ..
  · simp only
    split
    · exact set _
    · exact (set _).trans (warn ..)

theorem undefine (r : Run) (rest : List Token) (mark : Location) :
    Handles r (r.undefine u rest mark) := by
  rw [Run.undefine]
  split
  · exact record r (DirectiveFault.isOwn_report ..)
  · simp only
    split
    · exact ((warnExtra ..).trans (warn ..)).trans (of_eq rfl)
    · exact (warnExtra ..).trans (of_eq rfl)

theorem select (r : Run) (directive : Conditional) (mark : Location) (taken : Bool)
    (rest : List Token) : Handles r (r.select directive mark taken rest) := by
  refine of_eq ?_
  rw [Run.select, setBranch]
  split
  · split
    · rfl
    · rfl
  · rfl

theorem otherwise (r : Run) (frame : Frame) (outer : List Frame) (rest : List Token)
    (mark : Location) : Handles r (r.otherwise frame outer rest mark) := by
  have h := warnExtraInside r .otherwise rest
  simp only [Run.otherwise]
  split
  all_goals exact h.trans (of_eq rfl)

theorem noteFaults (r : Run) (line : List Scanned) : Handles r (r.noteFaults u line) := by
  rw [Run.noteFaults]
  split
  · refine foldl _ _ fun r report hreport => record r ?_
    obtain ⟨t, -, ht⟩ := List.mem_filterMap.mp hreport
    obtain ⟨fault, -, rfl⟩ := Option.map_eq_some_iff.mp ht
    rfl
  · exact refl r

theorem checkJournal (r : Run) : Handles r r.checkJournal := by
  rw [Run.checkJournal]
  split
  · exact of_eq rfl
  · exact refl r

theorem finish (r : Run) : Handles r (r.finish u) := by
  simp only [Run.finish]
  split
  · exact refl r
  split
  · exact flush r
  · exact (flush r).trans (error (DirectiveFault.isOwn_report ..) rfl)

end Handles

/-! ## The condition of a line -/

/-- The error that escapes from the condition of a conditional directive, if one is evaluated. -/
def escape? (r : Run) (u : SourceUnit) (directive : Conditional) (rest : List Token)
    (mark : Location) : Option Report :=
  match directive, r.frames with
  | .opening .ifTrue, _ => if r.isLive then u.escape? r.table rest mark else none
  | .elseIf, frame :: _ =>
    if !frame.elseSeen && frame.branch = .awaiting then u.escape? r.table rest mark else none
  | _, _ => none

/-- The error that escapes from the condition of a line, if one is evaluated. -/
def lineEscape? (r : Run) (u : SourceUnit) (line : List Token) : Option Report :=
  match LineForm.of line with
  | .directive mark name rest =>
    match Keyword.ofText? name.text with
    | some (.conditional c) => r.escape? u c rest mark.location
    | _ => none
  | _ => none

theorem uncaught?_test (u : SourceUnit) (r : Run) (rest : List Token) (mark : Location) :
    (r.test u rest mark).1.journal.uncaught? =
      r.journal.uncaught?.or (u.escape? r.table rest mark) := by
  have hwarned : Handles r (if u.setup.warnUndefined then
      (u.evaluate r.table rest mark).2.foldl (fun r t =>
        r.warn ("'" ++ t.text ++ "' is not defined, evaluates to 0") t.location) r else r) := by
    split
    · exact .foldl _ _ fun r t _ => .warn ..
    · exact .refl r
  simp only [test, SourceUnit.escape?]
  cases (u.evaluate r.table rest mark).1 with
  | ok value =>
    rw [Option.or_none]
    exact hwarned
  | error report =>
    simp only [record, Journal.error]
    rw [Journal.uncaught?_add, hwarned, Diagnostic.report?, Option.filter_some]
    cases report.category.isOwn with
    | false => rfl
    | true => rfl

theorem uncaught?_openFrame (u : SourceUnit) (r : Run) (opening : Opening) (rest : List Token)
    (mark : Location) :
    (r.openFrame u opening rest mark).journal.uncaught? =
      r.journal.uncaught?.or (r.escape? u (.opening opening) rest mark) := by
  cases hlive : r.isLive with
  | false =>
    have hnone : r.escape? u (.opening opening) rest mark = none := by
      cases opening with
      | ifTrue => simp [escape?, hlive]
      | _ => rfl
    rw [openFrame_dead u opening rest mark hlive, hnone, Option.or_none]
  | true =>
    have hnamed : ∀ r' : Run, Handles r r' →
        r'.journal.uncaught? = r.journal.uncaught?.or none := fun r' h =>
      Eq.trans h Option.or_none.symm
    simp only [openFrame, hlive, if_true]
    cases opening with
    | ifTrue =>
      simp only [escape?, hlive, if_true]
      exact Eq.trans (Handles.select ..) (uncaught?_test u _ rest mark)
    | ifDefined | ifUndefined =>
      refine hnamed _ ?_
      simp only
      split
      · exact Handles.record _ (DirectiveFault.isOwn_report ..)
      · exact Eq.trans (Handles.select ..) (Handles.warnExtra ..)

theorem uncaught?_elseIf (u : SourceUnit) (r : Run) (frame : Frame) (rest : List Token)
    (mark : Location) :
    (r.elseIf u frame rest mark).journal.uncaught? =
      r.journal.uncaught?.or
        (if frame.branch = .awaiting then u.escape? r.table rest mark else none) := by
  unfold elseIf
  split
  · rename_i hbranch
    rw [if_pos hbranch]
    exact Eq.trans (Handles.select ..) (uncaught?_test u r rest mark)
  all_goals
    rename_i hbranch
    rw [hbranch, if_neg (by decide), Option.or_none]
  · rw [judge, setBranch]
    split
    · rfl
    · rfl
  all_goals rfl

theorem uncaught?_conditional (u : SourceUnit) (r : Run) (directive : Conditional)
    (rest : List Token) (mark : Location) :
    (r.conditional u directive rest mark).journal.uncaught? =
      r.journal.uncaught?.or (r.escape? u directive rest mark) := by
  have hrefuse : ∀ fault, (r.refuse u fault mark mark).journal.uncaught? =
      r.journal.uncaught?.or none := fun fault =>
    Eq.trans (Handles.record r (DirectiveFault.isOwn_report ..)) Option.or_none.symm
  unfold conditional
  split
  · exact uncaught?_openFrame ..
  · exact hrefuse _
  · exact Eq.trans (Handles.warnExtraInside ..) Option.or_none.symm
  · exact hrefuse _
  · rename_i hframes
    simp only [escape?, hframes]
    exact hrefuse _
  · refine Eq.trans ?_ Option.or_none.symm
    split
    · exact Handles.record r (DirectiveFault.isOwn_report ..)
    · exact Handles.otherwise ..
  · rename_i frame outer hframes
    simp only [escape?, hframes]
    split
    · rename_i helse
      rw [helse]
      exact hrefuse _
    · rename_i helse
      rw [Bool.not_eq_true] at helse
      rw [uncaught?_elseIf, helse]
      simp

theorem handles_directive {name : Token} (u : SourceUnit) (r : Run) (mark : Token) (rest : List Token)
    (h : ∀ c, Keyword.ofText? name.text ≠ some (.conditional c)) :
    Handles r (r.directive u mark name rest) := by
  unfold directive
  split
  · rename_i c hkeyword
    exact absurd hkeyword (h c)
  split
  · split
    · exact .define ..
    · exact .undefine ..
    · exact .error (DirectiveFault.isOwn_report ..) rfl
    · exact .warn ..
    · exact .warn ..
    · exact .refl r
    · exact .refl r
    · exact .record r (DirectiveFault.isOwn_report ..)
  · exact .refl r

theorem lineEscape?_congr (htable : r'.table = r.table) (hframes : r'.frames = r.frames)
    (u : SourceUnit) (line : List Token) : r'.lineEscape? u line = r.lineEscape? u line := by
  have hescape : ∀ directive rest mark, r'.escape? u directive rest mark =
      r.escape? u directive rest mark := fun directive rest mark => by
    unfold escape?
    rw [htable, hframes, isLive_of_frames hframes]
    rfl
  simp only [lineEscape?, hescape]

theorem table_flush (u : SourceUnit) (r : Run) : (r.flush u).table = r.table :=
  congrArg Effect.table (flush_spec u r).1

/-- A line enters the error that escapes from its condition, and besides it only errors of this
library. -/
theorem uncaught?_takeLine (u : SourceUnit) (r : Run) (line : List Token) :
    (r.takeLine u line).journal.uncaught? = r.journal.uncaught?.or (r.lineEscape? u line) := by
  have hflushed : (r.flush u).lineEscape? u line = r.lineEscape? u line :=
    lineEscape?_congr (table_flush u r) (flush_spec u r).2.1 u line
  rw [← hflushed]
  unfold takeLine lineEscape?
  cases LineForm.of line with
  | text =>
    simp only [Option.or_none]
    split
    · rfl
    · rfl
  | nothing => exact Eq.trans (Handles.flush r) Option.or_none.symm
  | invalid mark name =>
    simp only [Option.or_none]
    split
    · exact (Handles.flush r).trans (.record _ (DirectiveFault.isOwn_report ..))
    · exact Handles.flush r
  | directive mark name rest =>
    simp only
    split
    · rename_i c hkeyword
      rw [directive, hkeyword]
      simp only
      rw [uncaught?_conditional, Handles.flush r]
    · rename_i hkeyword
      rw [Option.or_none]
      exact (Handles.flush r).trans (handles_directive u _ mark rest hkeyword)

theorem uncaught?_take (u : SourceUnit) (r : Run) (line : List Scanned) :
    (take u r line).journal.uncaught? =
      r.journal.uncaught?.or (r.lineEscape? u (line.map Scanned.token)) := by
  have hnoted := OnlyNotes.noteFaults (u := u) r line
  rw [take, Handles.checkJournal, uncaught?_takeLine, Handles.noteFaults r line,
    lineEscape?_congr (congrArg Effect.table hnoted.effect) hnoted.frames]

theorem exists_of_lineEscape? {line : List Token} (h : r.lineEscape? u line = some report) :
    ∃ table rest mark, u.escape? table rest mark = some report := by
  unfold lineEscape? escape? at h
  split at h
  · split at h
    · split at h
      · split at h
        · exact ⟨_, _, _, h⟩
        · cases h
      · split at h
        · exact ⟨_, _, _, h⟩
        · cases h
      · cases h
    · cases h
  · cases h

/-! ## Runs -/

theorem Extends.uncaught? (h : Extends r r') (hr : r.journal.uncaught? = some report) :
    r'.journal.uncaught? = some report :=
  Journal.uncaught?_of_prefix h.entries hr

theorem exists_of_uncaught?_takeLines {lines : List (List Scanned)}
    (hr : r.journal.uncaught? = none)
    (h : (takeLines u r lines).journal.uncaught? = some report) :
    ∃ table rest mark, u.escape? table rest mark = some report := by
  induction lines generalizing r with
  | nil => cases hr.symm.trans h
  | cons line lines ih =>
    have hnoted : (r.noteFaults u line).journal.uncaught? = none :=
      Eq.trans (Handles.noteFaults r line) hr
    rw [takeLines] at h
    split at h
    · cases hnoted.symm.trans h
    · have htaken := uncaught?_takeLine u (r.noteFaults u line) (line.map Scanned.token)
      rw [hnoted, Option.none_or, ← Handles.checkJournal ((r.noteFaults u line).takeLine u _)] at htaken
      cases hescape : (r.noteFaults u line).lineEscape? u (line.map Scanned.token) with
      | none => exact ih (htaken.trans hescape) h
      | some report' =>
        rw [(Extends.takeLines _ lines).uncaught? (htaken.trans hescape)] at h
        cases h
        exact exists_of_lineEscape? hescape

theorem run_eq_error_iff :
    run u table = .error report ↔ (start u table).journal.uncaught? = some report := by
  unfold run
  cases (start u table).journal.uncaught? with
  | none => simp
  | some report' => simp

theorem run_eq_ok_iff :
    run u table = .ok r ↔ (start u table).journal.uncaught? = none ∧ start u table = r := by
  unfold run
  cases (start u table).journal.uncaught? with
  | none => simp
  | some report' => simp

/-- A run ends without a result only for a number that is too long to be converted. -/
theorem exists_of_run_eq_error (h : run u table = .error report) :
    ∃ count, Text.digitLimit < count ∧
      report = { category := .conversion, message := (ConditionFault.tooManyDigits count).message } := by
  rw [run_eq_error_iff, start, Handles.finish] at h
  obtain ⟨table', rest, mark, hescape⟩ := exists_of_uncaught?_takeLines rfl h
  exact SourceUnit.exists_of_escape? hescape

end Run

end CPreprocessor
