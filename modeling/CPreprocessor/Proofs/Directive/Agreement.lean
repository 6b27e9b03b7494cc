import CPreprocessor.Proofs.Condition.Defined
import CPreprocessor.Proofs.Directive.Selection
import CPreprocessor.Proofs.Expansion.Lasting
import CPreprocessor.Proofs.Source.Quotation

/-!
# Runs over sources that agree

A run looks at its source only to quote lines, and at its verdicts not at all. So two runs that take
the same lines do the same as long as both sources quote the same at the places of these lines, and
as if the verdicts before had been other ones.
-/

namespace CPreprocessor

/-- Two sources with the same setup that quote the same at places with a property. -/
structure SourceUnit.Agree (P : Location → Prop) (u v : SourceUnit) : Prop where
  setup : u.setup = v.setup
  quote? : ∀ location, P location → u.quote? location = v.quote? location
  logicalLine : ∀ location, P location →
    u.listing.logicalLine location.line = v.listing.logicalLine location.line
  lineText : ∀ location, P location →
    u.source.lineText location.line = v.source.lineText location.line

variable {P : Location → Prop} {u v : SourceUnit} {r : Run} {rest line : List Token}
  {mark : Location}

namespace Defined

theorem standAt_resolve {isDefined : String → Bool} {resolved : List Token}
    (h : resolve isDefined rest = .ok resolved) (hrest : StandAt P rest) : StandAt P resolved := by
  intro t ht
  rcases mem_of_resolve h ht with ht | ⟨u, hu, answered, rfl⟩
  · exact hrest t ht
  · exact hrest u hu

end Defined

namespace SourceUnit.Agree

theorem symm (h : Agree P u v) : Agree P v u :=
  ⟨h.setup.symm, fun location hlocation => (h.quote? location hlocation).symm,
    fun location hlocation => (h.logicalLine location hlocation).symm,
    fun location hlocation => (h.lineText location hlocation).symm⟩

theorem trans {w : SourceUnit} (h : Agree P u v) (h' : Agree P v w) : Agree P u w :=
  ⟨h.setup.trans h'.setup,
    fun location hlocation => (h.quote? location hlocation).trans (h'.quote? location hlocation),
    fun location hlocation =>
      (h.logicalLine location hlocation).trans (h'.logicalLine location hlocation),
    fun location hlocation =>
      (h.lineText location hlocation).trans (h'.lineText location hlocation)⟩

theorem or {Q : Location → Prop} (h : Agree P u v) (h' : Agree Q u v) :
    Agree (fun location => P location ∨ Q location) u v :=
  ⟨h.setup, fun location hlocation => hlocation.elim (h.quote? location) (h'.quote? location),
    fun location hlocation => hlocation.elim (h.logicalLine location) (h'.logicalLine location),
    fun location hlocation => hlocation.elim (h.lineText location) (h'.lineText location)⟩

theorem expander (h : Agree P u v) (table : Table) : u.expander table = v.expander table := by
  rw [SourceUnit.expander, h.setup, SourceUnit.expander]

theorem reportIn (h : Agree P u v) {error : ExpansionError}
    (hlocation : ∀ location ∈ error.location, P location) :
    error.reportIn u.listing = error.reportIn v.listing := by
  unfold ExpansionError.reportIn
  cases herror : error.location with
  | none => rfl
  | some location =>
    rw [Option.bind_some, Option.bind_some]
    exact congrArg error.report (h.quote? location (hlocation location herror))

theorem evaluate (h : Agree P u v) (table : Table) (hrest : StandAt P rest) (hmark : P mark) :
    u.evaluate table rest mark = v.evaluate table rest mark := by
  unfold SourceUnit.evaluate
  rw [h.expander, h.setup]
  cases hresolve : Defined.resolve table.isDefined rest with
  | error fault => rfl
  | ok resolved =>
    have horigin := (v.expander table).expand_origin (Defined.standAt_resolve hresolve hrest)
    simp only
    cases hexpand : (v.expander table).expand resolved with
    | error error =>
      rw [hexpand] at horigin
      simp only
      rw [h.reportIn horigin]
    | ok expansion =>
      simp only [Option.bind_some]
      rw [h.quote? mark hmark]

theorem messageText (h : Agree P u v) (hmark : P mark) :
    Run.messageText u rest mark = Run.messageText v rest mark := by
  rw [Run.messageText, h.logicalLine mark hmark, Run.messageText]

end SourceUnit.Agree

namespace Run

open SourceUnit

theorem expandLine_congr (h : Agree P u v) (hline : StandAt P line) (r : Run) :
    expandLine u r line = expandLine v r line := by
  have horigin := (v.expander r.table).expand_origin hline
  rw [expandLine, expandLine, h.expander]
  cases hexpand : (v.expander r.table).expand line with
  | error error =>
    rw [hexpand] at horigin
    simp only
    rw [h.reportIn horigin]
  | ok expansion =>
    simp only [emit]
    rw [h.setup]

/-- Whether everything a run may still quote or has judged stands at places with a property. -/
structure Stands (P : Location → Prop) (r : Run) : Prop where
  pending : ∀ line ∈ r.pending, StandAt P line
  frames : ∀ frame ∈ r.frames, P frame.location
  verdicts : ∀ verdict ∈ r.verdicts, P verdict.location

theorem Stands.initial (table : Table) (journal : Journal) :
    Stands P { table, journal } where
  pending _ h := absurd h List.not_mem_nil
  frames _ h := absurd h List.not_mem_nil
  verdicts _ h := absurd h List.not_mem_nil

theorem flush_congr (h : Agree P u v) (hr : r.Stands P) : r.flush u = r.flush v := by
  have hlines : ∀ (lines : List (List Token)) (r : Run), (∀ line ∈ lines, StandAt P line) →
      lines.foldl (expandLine u) r = lines.foldl (expandLine v) r := by
    intro lines
    induction lines with
    | nil => exact fun r _ => rfl
    | cons line lines ih =>
      intro r hlines
      obtain ⟨hline, hlines⟩ := List.forall_mem_cons.mp hlines
      rw [List.foldl_cons, List.foldl_cons, expandLine_congr h hline, ih _ hlines]
  simp only [flush]
  rw [h.expander]
  split
  · rfl
  split
  · simp only [emit]
    rw [h.setup]
  · exact hlines _ _ hr.pending

theorem test_congr (h : Agree P u v) (hrest : StandAt P rest) (hmark : P mark) (r : Run) :
    r.test u rest mark = r.test v rest mark := by
  rw [test, h.evaluate r.table hrest hmark, h.setup, test]

theorem refuse_congr (h : Agree P u v) (hmark : P mark) (fault : DirectiveFault)
    (location : Location) (r : Run) :
    r.refuse u fault location mark = r.refuse v fault location mark := by
  rw [refuse, h.quote? mark hmark, refuse]

theorem openFrame_congr (h : Agree P u v) (hrest : StandAt P rest) (hmark : P mark)
    (opening : Opening) (r : Run) :
    r.openFrame u opening rest mark = r.openFrame v opening rest mark := by
  simp only [openFrame]
  rw [h.quote? mark hmark, test_congr h hrest hmark]

theorem conditional_congr (h : Agree P u v) (hrest : StandAt P rest) (hmark : P mark)
    (directive : Conditional) (r : Run) :
    r.conditional u directive rest mark = r.conditional v directive rest mark := by
  unfold conditional
  simp only [openFrame_congr h hrest hmark, refuse_congr h hmark, elseIf, test_congr h hrest hmark]

theorem undefine_congr (h : Agree P u v) (hmark : P mark) (r : Run) :
    r.undefine u rest mark = r.undefine v rest mark := by
  rw [undefine, h.quote? mark hmark, undefine]

theorem directive_congr (h : Agree P u v) {mark : Token} (hmark : P mark.location)
    (hrest : StandAt P rest) (name : Token) (r : Run) :
    r.directive u mark name rest = r.directive v mark name rest := by
  simp only [directive]
  rw [h.quote? _ hmark, h.messageText hmark, undefine_congr h hmark, refuse_congr h hmark]
  simp only [conditional_congr h hrest hmark]

end Run

theorem LineForm.mem_of {mark name : Token} (h : LineForm.of line = .directive mark name rest) :
    mark ∈ line ∧ name ∈ line ∧ ∀ t ∈ rest, t ∈ line := by
  unfold LineForm.of at h
  have hdrop := (List.dropWhile_sublist (l := line) fun t =>
    decide (t.kind = .whitespace) || decide (t.kind = .comment)).subset
  split at h
  · cases h
  · rename_i m afterMark heq
    rw [heq] at hdrop
    split at h
    · split at h
      · cases h
      · rename_i n after hskip
        have hafter := (List.dropWhile_sublist (l := afterMark) Token.isLayout).subset
        rw [← skipLayout, hskip] at hafter
        have htail : ∀ t ∈ n :: after, t ∈ line := fun t ht =>
          hdrop (List.mem_cons_of_mem m (hafter ht))
        split at h
        · cases h
          exact ⟨hdrop List.mem_cons_self, htail _ List.mem_cons_self, fun t ht =>
            htail t (List.mem_cons_of_mem _ (List.mem_filter.mp ht).1)⟩
        split at h
        · cases h
        · cases h
    · cases h

theorem LineForm.standAt_of {mark name : Token} (h : LineForm.of line = .directive mark name rest)
    (hline : StandAt P line) : P mark.location ∧ P name.location ∧ StandAt P rest :=
  have ⟨hmark, hname, hrest⟩ := LineForm.mem_of h
  ⟨hline mark hmark, hline name hname, fun t ht => hline t (hrest t ht)⟩

theorem LineForm.standAt_of_invalid {mark name : Token} (h : LineForm.of line = .invalid mark name)
    (hline : StandAt P line) : P mark.location := by
  unfold LineForm.of at h
  have hdrop := hline.sublist
    (List.dropWhile_sublist fun t => decide (t.kind = .whitespace) || decide (t.kind = .comment))
  split at h
  · cases h
  · rename_i m afterMark heq
    rw [heq] at hdrop
    split at h
    · split at h
      · cases h
      split at h
      · cases h
      split at h
      · cases h
      · cases h
        exact hdrop.head
    · cases h

namespace Run

open SourceUnit

theorem Stands.flush (hr : r.Stands P) (u : SourceUnit) : (r.flush u).Stands P := by
  obtain ⟨heffect, hframes, hpending⟩ := flush_spec u r
  refine ⟨?_, ?_, ?_⟩
  · rw [hpending]
    exact nofun
  · rw [hframes]
    exact hr.frames
  · have hverdicts : (r.flush u).verdicts = r.verdicts := congrArg Effect.verdicts heffect
    rw [hverdicts]
    exact hr.verdicts

theorem Stands.onlyNotes {r' : Run} (hr : r.Stands P) (h : OnlyNotes r r') : r'.Stands P := by
  have hverdicts : r'.verdicts = r.verdicts := congrArg Effect.verdicts h.effect
  refine ⟨?_, ?_, ?_⟩
  · rw [h.pending]
    exact hr.pending
  · rw [h.frames]
    exact hr.frames
  · rw [hverdicts]
    exact hr.verdicts

theorem Stands.judge (hr : r.Stands P) (hmark : P mark) (directive : Conditional)
    (taken : Option Bool) : (r.judge directive mark taken rest).Stands P :=
  ⟨hr.pending, hr.frames,
    List.forall_mem_append.mpr ⟨hr.verdicts, List.forall_mem_singleton.mpr hmark⟩⟩

theorem Stands.setFrames (hr : r.Stands P) {frames : List Frame}
    (h : ∀ frame ∈ frames, P frame.location) : { r with frames }.Stands P :=
  ⟨hr.pending, h, hr.verdicts⟩

theorem Stands.setBranch (hr : r.Stands P) (branch : Branch) : (r.setBranch branch).Stands P := by
  rw [Run.setBranch]
  split
  · exact hr
  · rename_i frame outer hframes
    have h := hr.frames
    rw [hframes] at h
    obtain ⟨hframe, houter⟩ := List.forall_mem_cons.mp h
    exact hr.setFrames (List.forall_mem_cons.mpr ⟨hframe, houter⟩)

theorem Stands.select (hr : r.Stands P) (hmark : P mark) (directive : Conditional) (taken : Bool) :
    (r.select directive mark taken rest).Stands P := by
  rw [Run.select]
  split
  · exact (hr.setBranch .active).judge hmark directive _
  · exact hr.judge hmark directive _

theorem Stands.openFrame (hr : r.Stands P) (hmark : P mark) (u : SourceUnit) (opening : Opening) :
    (r.openFrame u opening rest mark).Stands P := by
  have push : ∀ branch : Branch, Run.Stands P
      { r with frames := { opening, branch, location := mark } :: r.frames } := fun branch =>
    hr.setFrames (List.forall_mem_cons.mpr ⟨hmark, hr.frames⟩)
  simp only [Run.openFrame]
  split
  · split
    · exact ((push .awaiting).onlyNotes (test_spec ..).1).select hmark _ _
    all_goals
      split
      · exact (push .awaiting).onlyNotes (.record ..)
      · exact ((push .awaiting).onlyNotes (.warnExtra ..)).select hmark _ _
  · exact (push .dead).judge hmark _ _

theorem Stands.otherwise {frame : Frame} {outer : List Frame} (hr : r.Stands P)
    (hmark : P mark) (hframes : r.frames = frame :: outer) :
    (r.otherwise frame outer rest mark).Stands P := by
  have h := hr.frames
  rw [hframes] at h
  obtain ⟨hframe, houter⟩ := List.forall_mem_cons.mp h
  have enter : ∀ branch : Branch, Run.Stands P
      { r.warnExtraInside .otherwise rest with
        frames := { frame with branch, elseSeen := true } :: outer } := fun branch =>
    (hr.onlyNotes (.warnExtraInside r .otherwise rest)).setFrames
      (List.forall_mem_cons.mpr ⟨hframe, houter⟩)
  simp only [Run.otherwise]
  split
  · exact (enter .dead).judge hmark _ _
  · exact (enter .active).judge hmark _ _
  · exact (enter .done).judge hmark _ _
  · exact (enter .done).judge hmark _ _

theorem Stands.elseIf (hr : r.Stands P) (hmark : P mark) (u : SourceUnit) (frame : Frame) :
    (r.elseIf u frame rest mark).Stands P := by
  simp only [Run.elseIf]
  split
  · exact (hr.onlyNotes (test_spec ..).1).select hmark _ _
  · exact (hr.setBranch .done).judge hmark _ _
  · exact hr.judge hmark _ _
  · exact hr.judge hmark _ _

theorem Stands.conditional (hr : r.Stands P) (hmark : P mark) (u : SourceUnit)
    (directive : Conditional) : (r.conditional u directive rest mark).Stands P := by
  unfold Run.conditional
  split
  · exact hr.openFrame hmark u _
  · exact hr.onlyNotes (.record ..)
  · rename_i frame outer hframes
    have h := hr.frames
    rw [hframes] at h
    exact (hr.onlyNotes (.warnExtraInside ..)).setFrames (List.forall_mem_cons.mp h).2
  · exact hr.onlyNotes (.record ..)
  · exact hr.onlyNotes (.record ..)
  · rename_i frame outer hframes
    split
    · exact hr.onlyNotes (.record ..)
    · exact hr.otherwise hmark hframes
  · split
    · exact hr.onlyNotes (.record ..)
    · exact hr.elseIf hmark u _

theorem Stands.directive (hr : r.Stands P) {mark : Token} (hmark : P mark.location)
    (u : SourceUnit) (name : Token) : (r.directive u mark name rest).Stands P := by
  by_cases h : ∃ c, Keyword.ofText? name.text = some (.conditional c)
  · obtain ⟨c, hc⟩ := h
    simp only [Run.directive, hc]
    exact hr.conditional hmark u c
  · obtain ⟨heffect, hframes, hpending⟩ := directive_spec u r mark rest fun c hc => h ⟨c, hc⟩
    have hverdicts : (r.directive u mark name rest).verdicts = r.verdicts := by
      refine (congrArg Effect.verdicts heffect).trans ?_
      split
      · split
        · rfl
        · rfl
        · rfl
      · rfl
    exact ⟨by rw [hpending]; exact hr.pending, by rw [hframes]; exact hr.frames,
      by rw [hverdicts]; exact hr.verdicts⟩

theorem Stands.takeLine (hr : r.Stands P) (u : SourceUnit) (hline : StandAt P line) :
    (r.takeLine u line).Stands P := by
  rw [Run.takeLine]
  cases hform : LineForm.of line with
  | text =>
    simp only
    split
    · exact ⟨List.forall_mem_append.mpr ⟨hr.pending, List.forall_mem_singleton.mpr hline⟩,
        hr.frames, hr.verdicts⟩
    · exact hr
  | nothing => exact hr.flush u
  | invalid mark name =>
    simp only
    split
    · exact (hr.flush u).onlyNotes (.record ..)
    · exact hr.flush u
  | directive mark name rest =>
    exact (hr.flush u).directive (LineForm.standAt_of hform hline).1 u name

theorem takeLine_congr (h : Agree P u v) (hline : StandAt P line) (hr : r.Stands P) :
    r.takeLine u line = r.takeLine v line := by
  rw [takeLine, takeLine, flush_congr h hr]
  cases hform : LineForm.of line with
  | text => rfl
  | nothing => rfl
  | invalid mark name =>
    simp only
    rw [refuse_congr h (LineForm.standAt_of_invalid hform hline)]
  | directive mark name rest =>
    obtain ⟨hmark, -, hrest⟩ := LineForm.standAt_of hform hline
    exact directive_congr h hmark hrest name _

theorem noteFaults_congr (h : Agree P u v) {line : List Scanned}
    (hline : StandAt P (line.map Scanned.token)) (r : Run) :
    r.noteFaults u line = r.noteFaults v line := by
  have hplace : ∀ t ∈ line, P t.token.location := fun t ht => hline _ (List.mem_map_of_mem ht)
  have hfaulty : (line.filter fun t => t.fault.isSome && !inMessage u t.token.location) =
      line.filter fun t => t.fault.isSome && !inMessage v t.token.location := by
    refine List.filter_congr fun t ht => ?_
    rw [inMessage, h.logicalLine _ (hplace t ht), inMessage]
  have hreport : ∀ t ∈ line, u.source.reportOf? t = v.source.reportOf? t := fun t ht =>
    Source.reportOf?_congr (h.lineText _ (hplace t ht))
  simp only [noteFaults]
  rw [hfaulty, List.filterMap_congr fun t ht => hreport t (List.mem_filter.mp ht).1]

theorem Stands.take (hr : r.Stands P) (u : SourceUnit) {line : List Scanned}
    (hline : StandAt P (line.map Scanned.token)) : (take u r line).Stands P :=
  ((hr.onlyNotes (.noteFaults r line)).takeLine u hline).onlyNotes (.checkJournal _)

theorem take_congr (h : Agree P u v) {line : List Scanned}
    (hline : StandAt P (line.map Scanned.token)) (hr : r.Stands P) :
    take u r line = take v r line := by
  have hnoted : (r.noteFaults v line).Stands P := hr.onlyNotes (.noteFaults r line)
  rw [take, take, noteFaults_congr h hline, takeLine_congr h hline hnoted]

theorem takeLines_congr (h : Agree P u v) {lines : List (List Scanned)}
    (hlines : ∀ line ∈ lines, StandAt P (line.map Scanned.token)) (hr : r.Stands P) :
    takeLines u r lines = takeLines v r lines ∧ (takeLines v r lines).Stands P := by
  induction lines generalizing r with
  | nil => exact ⟨rfl, hr⟩
  | cons line lines ih =>
    obtain ⟨hline, hlines⟩ := List.forall_mem_cons.mp hlines
    have hnoted : (r.noteFaults v line).Stands P := hr.onlyNotes (.noteFaults r line)
    simp only [takeLines]
    rw [noteFaults_congr h hline]
    split
    · exact ⟨rfl, hnoted⟩
    · rw [takeLine_congr h hline hnoted]
      exact ih hlines ((hnoted.takeLine v hline).onlyNotes (.checkJournal _))

theorem finish_congr (h : Agree P u v) (hr : r.Stands P) : r.finish u = r.finish v := by
  have hflush := hr.flush v
  simp only [finish]
  rw [flush_congr h hr]
  split
  · rfl
  split
  · rfl
  · rename_i frame outer hframes
    rw [h.quote? _ (hflush.frames frame (by rw [hframes]; exact List.mem_cons_self))]

end Run

end CPreprocessor
