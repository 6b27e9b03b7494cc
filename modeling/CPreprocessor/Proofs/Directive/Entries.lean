import CPreprocessor.Proofs.Directive.LineByLine
import CPreprocessor.Proofs.Directive.Steps

/-!
# What is entered into the journal

A step enters three things, one after the other: the lexical fault of its line where text is live, an
error for each line of the text before it that cannot be expanded, and what its directive has to tell.
The last is at most one error, with warnings, and never a lexical one (`Run.Step.exists_entered`); what it
may be is a `Run.Complaint`.
-/

namespace CPreprocessor

namespace Diagnostic

/-- Whether a diagnostic is an error in text that is no token. -/
def isLexical (d : Diagnostic) : Bool := d.report?.any fun report => report.category = .lexical

theorem isLexical_error {report : Report} {fatal : Bool} (h : report.category ≠ .lexical) :
    (error report fatal).isLexical = false := decide_eq_false h

end Diagnostic

theorem ConditionFault.category_ne_lexical (fault : ConditionFault) : fault.category ≠ .lexical := by
  cases fault <;> nofun

theorem DirectiveFault.category_ne_lexical (fault : DirectiveFault) : fault.category ≠ .lexical := by
  cases fault <;> nofun

theorem ExpansionFault.category_ne_lexical (fault : ExpansionFault) : fault.category ≠ .lexical := by
  cases fault <;> nofun

namespace LineForm

/-- The tokens that a directive is made of: the `#`, its name and what follows. -/
def parts : LineForm → List Token
  | text | nothing => []
  | invalid mark name => [mark, name]
  | directive mark name rest => mark :: name :: rest

end LineForm

namespace Run

/-- What is entered for the lexical faults of a line. -/
def faults (u : SourceUnit) (r : Run) (line : List Scanned) : List Diagnostic :=
  if r.isLive then (faultReports u line).map (.error · false) else []

/-- What is entered for lines of text: nothing if they can be expanded together, and else an error for
each that cannot be expanded alone. -/
def failures (u : SourceUnit) (table : Table) (lines : List (List Token)) : List Diagnostic :=
  match (u.expander table).expand lines.flatten with
  | .ok _ => []
  | .error _ => lines.filterMap (lineError? u table)

variable {u : SourceUnit} {r r₁ r₂ r₃ : Run} {m n : Nat}

theorem entries_noteFaults_eq (u : SourceUnit) (r : Run) (line : List Scanned) :
    (r.noteFaults u line).journal.entries = r.journal.entries ++ r.faults u line := by
  cases hlive : r.isLive with
  | true => rw [entries_noteFaults hlive, faults, if_pos hlive]
  | false =>
    rw [noteFaults, faults, hlive, if_neg Bool.false_ne_true, if_neg Bool.false_ne_true,
      List.append_nil]

theorem failures_nil (u : SourceUnit) (table : Table) : failures u table [] = [] := by
  unfold failures
  split
  · rfl
  · rfl

theorem journal_flush (u : SourceUnit) (r : Run) :
    (r.flush u).journal.entries = r.journal.entries ++ failures u r.table r.pending ∧
      (r.flush u).aborted = r.aborted := by
  by_cases hnil : r.pending = []
  · rw [flush_of_pending hnil]
    exact ⟨by rw [hnil, failures_nil, List.append_nil], rfl⟩
  · simp only [flush, failures]
    rw [if_neg (by simpa using hnil)]
    cases (u.expander r.table).expand r.pending.flatten with
    | ok expansion => exact ⟨(List.append_nil _).symm, rfl⟩
    | error error =>
      rw [foldl_expandLine]
      exact ⟨rfl, rfl⟩

theorem checkJournal_spec (r : Run) :
    r.checkJournal.journal = r.journal ∧
      r.checkJournal.aborted = (r.aborted || r.journal.isFull) := by
  rw [checkJournal]
  split
  · rename_i hfull
    exact ⟨rfl, by rw [hfull, Bool.or_true]⟩
  · rename_i hfull
    exact ⟨rfl, by rw [Bool.eq_false_iff.mpr hfull, Bool.or_false]⟩

/-- A condition that cannot be evaluated is no lexical error. -/
theorem category_of_evaluate {table : Table} {rest : List Token} {mark : Location} {report : Report}
    (h : (u.evaluate table rest mark).1 = .error report) : report.category ≠ .lexical := by
  unfold SourceUnit.evaluate at h
  split at h
  · obtain rfl := Except.error.inj h
    exact ConditionFault.category_ne_lexical _
  · split at h
    · obtain rfl := Except.error.inj h
      exact ExpansionFault.category_ne_lexical _
    · simp only at h
      cases hresult : (evaluate _ _).result with
      | ok value =>
        rw [hresult] at h
        cases h
      | error fault =>
        rw [hresult] at h
        obtain rfl := Except.error.inj h
        exact ConditionFault.category_ne_lexical fault.cause

/-! ## What a directive has to tell -/

/-- The errors that a directive with its `#` at `mark` may enter: one of the directive itself, at the `#` or
at another token of it, one of a definition, and one of a condition that is made of its tokens. -/
inductive Complaint (u : SourceUnit) (mark : Token) (operands : List Token) : Report → Prop
  | directive (fault : DirectiveFault) :
    Complaint u mark operands (DirectiveFault.report ⟨fault, mark.location⟩ (u.quote? mark.location))
  | operand {fault : DirectiveFault} (hfault : fault.category = .directive) {t : Token}
    (ht : t ∈ operands) :
    Complaint u mark operands (DirectiveFault.report ⟨fault, t.location⟩ (u.quote? mark.location))
  | definition (fault : Located DefinitionFault) :
    Complaint u mark operands (DefinitionFault.report fault)
  | condition {table : Table} {rest : List Token} {report : Report} (hrest : ∀ t ∈ rest, t ∈ operands)
    (h : (u.evaluate table rest mark.location).1 = .error report) : Complaint u mark operands report

theorem Complaint.category_ne_lexical {mark : Token} {operands : List Token} {report : Report}
    (h : Complaint u mark operands report) : report.category ≠ .lexical := by
  cases h with
  | directive fault => exact DirectiveFault.category_ne_lexical fault
  | operand hfault ht => exact DirectiveFault.category_ne_lexical _
  | definition fault => rintro ⟨⟩
  | condition hrest h => exact category_of_evaluate h

/-- A step that enters at most so many errors, all with a property. -/
def Tells (P : Report → Prop) (n : Nat) (r r' : Run) : Prop :=
  ∃ told : List Diagnostic, r'.journal.entries = r.journal.entries ++ told ∧
    told.countP Diagnostic.isError ≤ n ∧ ∀ report fatal, .error report fatal ∈ told → P report

namespace Tells

section
variable {P : Report → Prop}

theorem of_eq (h : r₂.journal = r₁.journal) : Tells P n r₁ r₂ :=
  ⟨[], by rw [h, List.append_nil], Nat.zero_le n, fun _ _ hmem => absurd hmem List.not_mem_nil⟩

theorem refl (r : Run) : Tells P n r r := of_eq rfl

theorem mono {Q : Report → Prop} (h : Tells P n r₁ r₂) (hPQ : ∀ report, P report → Q report) :
    Tells Q n r₁ r₂ :=
  have ⟨told, hentries, hcount, hreports⟩ := h
  ⟨told, hentries, hcount, fun report fatal hmem => hPQ report (hreports report fatal hmem)⟩

theorem trans (h₁ : Tells P m r₁ r₂) (h₂ : Tells P n r₂ r₃) : Tells P (m + n) r₁ r₃ := by
  obtain ⟨told₁, hentries₁, hcount₁, hreports₁⟩ := h₁
  obtain ⟨told₂, hentries₂, hcount₂, hreports₂⟩ := h₂
  refine ⟨told₁ ++ told₂, by rw [hentries₂, hentries₁, List.append_assoc], ?_, fun report fatal h => ?_⟩
  · rw [List.countP_append]
    exact Nat.add_le_add hcount₁ hcount₂
  · exact (List.mem_append.mp h).elim (hreports₁ report fatal) (hreports₂ report fatal)

/-- A step that only warns goes before one that may enter an error. -/
theorem after (h₁ : Tells P 0 r₁ r₂) (h₂ : Tells P n r₂ r₃) : Tells P n r₁ r₃ := by
  have h := h₁.trans h₂
  rwa [Nat.zero_add] at h

theorem error {report : Report} (fatal : Bool) (h : P report)
    (hjournal : r₂.journal = r₁.journal.error report fatal) : Tells P 1 r₁ r₂ := by
  refine ⟨[.error report fatal], by rw [hjournal]; rfl, Nat.le_refl 1, fun report' fatal' hmem => ?_⟩
  cases List.mem_singleton.mp hmem
  exact h

theorem warn (r : Run) (message : String) (location : Option Location) :
    Tells P n r (r.warn message location) :=
  ⟨[.warning message location], rfl, Nat.zero_le n, by simp⟩

theorem warnExtra (r : Run) (directive : String) (extra : List Token) :
    Tells P n r (r.warnExtra directive extra) := by
  cases extra with
  | nil => exact refl r
  | cons t ts => exact warn ..

theorem warnExtraInside (r : Run) (directive : Conditional) (rest : List Token) :
    Tells P n r (r.warnExtraInside directive rest) := by
  rw [Run.warnExtraInside]
  split
  · exact warnExtra ..
  · exact refl r

theorem foldl_warn {α : Type} {step : Run → α → Run} (h : ∀ r a, Tells P 0 r (step r a))
    (as : List α) (r : Run) : Tells P 0 r (as.foldl step r) := by
  induction as generalizing r with
  | nil => exact refl r
  | cons a as ih => exact (h r a).after (ih _)

theorem select (r : Run) (directive : Conditional) (mark : Location) (taken : Bool)
    (rest : List Token) : Tells P n r (r.select directive mark taken rest) := by
  rw [Run.select]
  split
  · refine of_eq ?_
    rw [judge, setBranch]
    split
    · rfl
    · rfl
  · exact of_eq rfl

theorem otherwise (r : Run) (frame : Frame) (outer : List Frame) (rest : List Token)
    (mark : Location) : Tells P n r (r.otherwise frame outer rest mark) := by
  have h := warnExtraInside (P := P) (n := 0) r .otherwise rest
  simp only [Run.otherwise]
  split
  all_goals exact h.after (of_eq rfl)

end

section
variable {mark : Token} {operands rest : List Token} (hrest : ∀ t ∈ rest, t ∈ operands)

theorem refuse (r : Run) (fault : DirectiveFault) :
    Tells (Complaint u mark operands) 1 r (r.refuse u fault mark.location mark.location) :=
  error false (.directive fault) rfl

theorem refuse_operand (r : Run) {fault : DirectiveFault} (hfault : fault.category = .directive)
    {t : Token} (ht : t ∈ operands) :
    Tells (Complaint u mark operands) 1 r (r.refuse u fault t.location mark.location) :=
  error false (.operand hfault ht) rfl

theorem define (r : Run) (rest : List Token) (place : Location) :
    Tells (Complaint u mark operands) 1 r (r.define rest place) := by
  rw [Run.define]
  split
  · exact error false (.definition _) rfl
  split
  · exact warn ..
  · simp only
    split
    · exact of_eq rfl
    · exact (of_eq rfl).after (warn ..)

include hrest

/-- A directive that is given no name, or something else, is refused. -/
theorem macroName (r : Run) {directive : String} {fault : Located DirectiveFault}
    (h : Run.macroName directive rest mark.location = .error fault) :
    Tells (Complaint u mark operands) 1 r
      (r.record (DirectiveFault.report fault (u.quote? mark.location))) := by
  unfold Run.macroName at h
  split at h
  · obtain rfl := Except.error.inj h
    exact refuse r _
  · rename_i name extra hname
    split at h
    · cases h
    · obtain rfl := Except.error.inj h
      have hmem : name ∈ rest := (List.mem_filter.mp (hname ▸ List.mem_cons_self : name ∈ significant rest)).1
      exact refuse_operand r rfl (hrest name hmem)

theorem undefine (r : Run) :
    Tells (Complaint u mark operands) 1 r (r.undefine u rest mark.location) := by
  rw [Run.undefine]
  split
  · rename_i fault h
    exact macroName hrest r h
  · simp only
    split
    · exact ((warnExtra ..).after (warn ..)).after (of_eq rfl)
    · exact (warnExtra ..).after (of_eq rfl)

theorem test (r : Run) :
    Tells (Complaint u mark operands) 1 r (r.test u rest mark.location).1 := by
  have hwarned : Tells (Complaint u mark operands) 0 r (if u.setup.warnUndefined then
      (u.evaluate r.table rest mark.location).2.foldl (fun r t =>
        r.warn ("'" ++ t.text ++ "' is not defined, evaluates to 0") t.location) r else r) := by
    split
    · exact foldl_warn (fun r t => warn ..) _ _
    · exact refl r
  simp only [Run.test]
  split
  · exact hwarned.after (refl _)
  · rename_i report h
    exact hwarned.after (error false (.condition hrest h) rfl)

theorem openFrame (r : Run) (opening : Opening) :
    Tells (Complaint u mark operands) 1 r (r.openFrame u opening rest mark.location) := by
  have push : ∀ frames, Tells (Complaint u mark operands) 0 r { r with frames } :=
    fun frames => of_eq rfl
  simp only [Run.openFrame]
  split
  · split
    · exact (push _).after ((test hrest _).trans (select (n := 0) ..))
    all_goals
      split
      · rename_i fault h
        exact (push _).after (macroName hrest _ h)
      · exact (push _).after ((warnExtra ..).after (select ..))
  · exact of_eq rfl

theorem elseIf (r : Run) (frame : Frame) :
    Tells (Complaint u mark operands) 1 r (r.elseIf u frame rest mark.location) := by
  simp only [Run.elseIf]
  split
  · exact (test hrest _).trans (select (n := 0) ..)
  · refine of_eq ?_
    rw [judge, setBranch]
    split
    · rfl
    · rfl
  · exact of_eq rfl
  · exact of_eq rfl

theorem conditional (r : Run) (directive : Conditional) :
    Tells (Complaint u mark operands) 1 r (r.conditional u directive rest mark.location) := by
  unfold Run.conditional
  split
  · exact openFrame hrest ..
  · exact refuse ..
  · exact (warnExtraInside ..).after (of_eq rfl)
  · exact refuse ..
  · exact refuse ..
  · split
    · exact refuse ..
    · exact otherwise ..
  · split
    · exact refuse ..
    · exact elseIf hrest ..

omit hrest

/-- A directive tells of one error at most. -/
theorem directive (r : Run) (mark name : Token) (rest : List Token) :
    Tells (Complaint u mark (name :: rest)) 1 r (r.directive u mark name rest) := by
  have hrest : ∀ t ∈ rest, t ∈ name :: rest := fun t => List.mem_cons_of_mem name
  simp only [Run.directive]
  split
  · exact conditional hrest ..
  split
  · split
    · exact define ..
    · exact undefine hrest ..
    · exact error true (.directive _) rfl
    · exact warn ..
    · exact warn ..
    · exact refl r
    · exact refl r
    · exact refuse_operand r rfl List.mem_cons_self
  · exact refl r

end

end Tells

/-! ## What a step enters -/

namespace Step

variable {s : Step}

def faults (u : SourceUnit) (s : Step) : List Diagnostic := s.before.faults u s.line

/-- What a step enters for the text before it. -/
def failures (u : SourceUnit) (s : Step) : List Diagnostic :=
  if s.form = .text then [] else Run.failures u s.before.table s.before.pending

/-- What a step enters into the journal. -/
def entered (u : SourceUnit) (s : Step) : List Diagnostic :=
  (s.after u).journal.entries.drop s.before.journal.entries.length

theorem entries_after (u : SourceUnit) (s : Step) :
    (s.after u).journal.entries = s.before.journal.entries ++ s.entered u :=
  (List.prefix_iff_eq_append.mp
    (((Extends.noteFaults _ _).trans (Extends.takeLine _ _)).trans (Extends.checkJournal _)).entries).symm

theorem limit_after (u : SourceUnit) (s : Step) :
    (s.after u).journal.limit = s.before.journal.limit :=
  (((Extends.noteFaults _ _).trans (Extends.takeLine _ _)).trans (Extends.checkJournal _)).limit

/-- A step enters the faults of its line, what comes of the text before it, and what its directive has to
tell. -/
theorem exists_entered (u : SourceUnit) (s : Step) :
    ∃ told : List Diagnostic, s.entered u = s.faults u ++ s.failures u ++ told ∧
      told.countP Diagnostic.isError ≤ 1 ∧
      (∀ report fatal, .error report fatal ∈ told →
        ∃ mark operands, s.form.parts = mark :: operands ∧ Complaint u mark operands report) ∧
      (s.form = .text → told = []) := by
  have hnoted := OnlyNotes.noteFaults (u := u) s.before s.line
  have hflush : ((s.before.noteFaults u s.line).flush u).journal.entries =
      s.before.journal.entries ++ (s.faults u ++ Run.failures u s.before.table s.before.pending) := by
    rw [(journal_flush ..).1, entries_noteFaults_eq, hnoted.pending,
      show (s.before.noteFaults u s.line).table = s.before.table from
        congrArg Effect.table hnoted.effect, List.append_assoc, faults]
  have hentered : s.entered u =
      ((s.before.noteFaults u s.line).takeLine u (s.line.map Scanned.token)).journal.entries.drop
        s.before.journal.entries.length := by
    rw [entered, after, take, (checkJournal_spec _).1]
  have htells : s.form ≠ .text → Tells (fun report =>
      ∃ mark operands, s.form.parts = mark :: operands ∧ Complaint u mark operands report) 1
      ((s.before.noteFaults u s.line).flush u)
      ((s.before.noteFaults u s.line).takeLine u (s.line.map Scanned.token)) := by
    intro htext
    rw [takeLine, form]
    cases hform : LineForm.of (s.line.map Scanned.token) with
    | text => exact absurd hform htext
    | nothing => exact .refl _
    | invalid mark name =>
      simp only
      split
      · have hcategory : DirectiveFault.invalid.category = .directive := rfl
        exact .error false ⟨mark, [name], rfl, .operand hcategory List.mem_cons_self⟩ rfl
      · exact .refl _
    | directive mark name rest =>
      exact (Tells.directive ..).mono fun report h => ⟨mark, name :: rest, rfl, h⟩
  by_cases htext : s.form = .text
  · refine ⟨[], ?_, Nat.zero_le 1, fun _ _ hmem => absurd hmem List.not_mem_nil, fun _ => rfl⟩
    have htake : ((s.before.noteFaults u s.line).takeLine u
        (s.line.map Scanned.token)).journal = (s.before.noteFaults u s.line).journal := by
      rw [takeLine, show LineForm.of (s.line.map Scanned.token) = .text from htext]
      simp only
      split
      · rfl
      · rfl
    rw [hentered, htake, entries_noteFaults_eq, List.drop_left, failures, if_pos htext,
      List.append_nil, List.append_nil, faults]
  · obtain ⟨told, htold, hcount, hreports⟩ := htells htext
    refine ⟨told, ?_, hcount, hreports, fun h => absurd h htext⟩
    rw [hentered, htold, hflush, List.append_assoc, List.drop_left, failures, if_neg htext]

end Step

/-! ## What a run enters -/

/-- What is entered at the end of a source for the frames that are open there. -/
def unterminated (u : SourceUnit) : List Frame → List Diagnostic
  | [] => []
  | frame :: _ =>
    [.error (DirectiveFault.report ⟨.unterminated frame.opening.name, frame.location⟩
      (u.quote? frame.location)) true]

variable {table : Table}

theorem entries_finish (u : SourceUnit) (h : r.aborted = false) :
    (r.finish u).journal.entries =
        r.journal.entries ++ (failures u r.table r.pending ++ unterminated u r.frames) ∧
      (r.finish u).aborted = !r.frames.isEmpty := by
  obtain ⟨-, hframes, -⟩ := flush_spec u r
  obtain ⟨hentries, haborted⟩ := journal_flush u r
  rw [finish, if_neg (by rw [h]; exact Bool.false_ne_true)]
  simp only [hframes]
  cases r.frames with
  | nil => exact ⟨by rw [hentries, unterminated, List.append_nil], haborted.trans h⟩
  | cons frame outer =>
    refine ⟨?_, rfl⟩
    rw [← List.append_assoc, ← hentries]
    rfl

theorem entries_reached (u : SourceUnit) (table : Table) :
    (u.reached table).journal.entries = (u.steps table).flatMap (Step.entered u) :=
  append_steps (f := fun r => r.journal.entries) (Step.entries_after u) (initial u table)
    u.source.logicalLines

theorem isLexical_failures {lines : List (List Token)} :
    ∀ d ∈ failures u table lines, d.isLexical = false := by
  intro d hd
  unfold failures at hd
  split at hd
  · exact absurd hd List.not_mem_nil
  · obtain ⟨line, -, hline⟩ := List.mem_filterMap.mp hd
    unfold lineError? at hline
    split at hline
    · cases hline
    · obtain rfl := Option.some.inj hline
      exact Diagnostic.isLexical_error (ExpansionFault.category_ne_lexical _)

/-- The lexical errors of a run are those of the lines that it takes, and of the one that it looks at
when it is stopped. -/
theorem mem_entries_iff_of_isLexical {d : Diagnostic} (hd : d.isLexical = true) :
    d ∈ (start u table).journal.entries ↔
      (∃ s ∈ u.steps table, d ∈ s.faults u) ∨
        (u.reached table).aborted = true ∧ d ∈ (u.reached table).faults u (u.nextLine table) := by
  have hother : ∀ {ds : List Diagnostic}, (∀ d ∈ ds, d.isLexical = false) → d ∉ ds :=
    fun h hmem => absurd (h d hmem) (by rw [hd]; exact Bool.noConfusion)
  have hreached : d ∈ (u.reached table).journal.entries ↔ ∃ s ∈ u.steps table, d ∈ s.faults u := by
    rw [entries_reached, List.mem_flatMap]
    refine exists_congr fun s => and_congr_right fun _ => ?_
    obtain ⟨told, hentered, -, htold, -⟩ := s.exists_entered u
    have hfailures : d ∉ s.failures u := by
      rw [Step.failures]
      split
      · exact List.not_mem_nil
      · exact hother isLexical_failures
    have htold : d ∉ told := by
      intro hmem
      cases d with
      | warning => cases hd
      | error report fatal =>
        obtain ⟨mark, operands, -, hcomplaint⟩ := htold report fatal hmem
        exact hcomplaint.category_ne_lexical (of_decide_eq_true hd)
    rw [hentered, List.mem_append, List.mem_append, or_iff_left htold, or_iff_left hfailures]
  rw [start_eq]
  cases haborted : (u.reached table).aborted with
  | true => rw [if_pos rfl, entries_noteFaults_eq, List.mem_append, hreached, and_iff_right rfl]
  | false =>
    have hunterminated : d ∉ unterminated u (u.reached table).frames := by
      cases (u.reached table).frames with
      | nil => exact List.not_mem_nil
      | cons frame outer =>
        exact hother (List.forall_mem_singleton.mpr (Diagnostic.isLexical_error (by rintro ⟨⟩)))
    rw [if_neg Bool.false_ne_true, (entries_finish u haborted).1, List.mem_append, List.mem_append,
      hreached, or_iff_right (hother isLexical_failures), or_iff_left hunterminated,
      or_iff_left fun h => Bool.false_ne_true h.1]

end Run

end CPreprocessor
