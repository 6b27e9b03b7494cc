import CPreprocessor.Proofs.Directive.Frames
import CPreprocessor.Proofs.Directive.Steps

/-!
# A verdict for each branch

Every directive that begins a branch gets one verdict, which says that the branch is taken exactly if
text is live right after the directive. Only an `#ifdef` or `#ifndef` in live text that names no macro
gets none: its frame is open by the time that it is refused (`Run.verdicts_start`).
-/

namespace CPreprocessor

/-- Whether a directive begins a branch where some frames are open: it opens a frame, or goes on in
the innermost one, which has had no `#else`. -/
def Conditional.begins (frames : List Frame) : Conditional → Bool
  | opening _ => true
  | elseIf | otherwise => frames.head?.any fun frame => !frame.elseSeen
  | closing => false

/-- Whether the tokens after a directive that opens a frame lack the name that it needs. -/
def Conditional.isNameless (rest : List Token) : Conditional → Bool
  | opening .ifDefined | opening .ifUndefined => !(significant rest).head?.any Token.isIdentifier
  | _ => false

/-- Whether a line is an `#ifdef` or `#ifndef` that names no macro. -/
def LineForm.isNameless : LineForm → Bool
  | directive _ name rest =>
    match Keyword.ofText? name.text with
    | some (.conditional c) => c.isNameless rest
    | _ => false
  | _ => false

/-- A line without a conditional directive is text, or plain. -/
theorem LineForm.isPlain_of_conditional? {form : LineForm} (h : form.conditional? = none)
    (htext : form ≠ .text) : form.IsPlain := by
  cases form with
  | text => exact absurd rfl htext
  | nothing => trivial
  | invalid mark name => trivial
  | directive mark name rest =>
    intro c hc
    simp only [conditional?, hc] at h
    cases h

theorem Effect.verdicts_plain (e : Effect) (line : PlainLine) :
    (e.plain line).verdicts = e.verdicts := by
  unfold plain
  split
  · split
    · rfl
    · rfl
    · rfl
  · rfl

theorem hasOperand_iff {opening : Opening} {rest : List Token} :
    HasOperand opening rest ↔ (Conditional.opening opening).isNameless rest = false := by
  unfold HasOperand
  cases hrest : significant rest with
  | nil => cases opening <;> simp [Conditional.isNameless, hrest]
  | cons name extra => cases opening <;> simp [Conditional.isNameless, hrest]

theorem Frame.exists_stands {frame : Frame} (h : frame.elseSeen = false) :
    ∃ live taken, frame.Stands live taken := by
  cases hbranch : frame.branch with
  | active => exact ⟨true, true, h, by rw [hbranch]; exact ⟨rfl, rfl⟩⟩
  | awaiting => exact ⟨true, false, h, by rw [hbranch]; exact ⟨rfl, rfl⟩⟩
  | done => exact ⟨true, true, h, by rw [hbranch]; exact ⟨rfl, rfl⟩⟩
  | dead => exact ⟨false, false, h, by rw [hbranch]⟩

namespace Run

variable {u : SourceUnit} {r : Run} {rest : List Token} {mark : Location}

/-- A step that enters one verdict on a directive, and leaves text live exactly if it is taken. -/
def Judges (c : Conditional) (mark : Location) (rest : List Token) (r r' : Run) : Prop :=
  ∃ taken, r'.verdicts = r.verdicts ++ [⟨c, mark, taken, conditionText rest⟩] ∧
    (taken = some true ↔ r'.isLive = true)

theorem judges_of_effect {c : Conditional} {r' : Run} {taken : Option Bool} {frame : Frame}
    {outer : List Frame} (heffect : r'.effect = r.effect.add ⟨c, mark, taken, conditionText rest⟩)
    (hframes : r'.frames = frame :: outer) (hactive : frame.branch = .active ↔ taken = some true) :
    Judges c mark rest r r' := by
  refine ⟨taken, congrArg Effect.verdicts heffect, ?_⟩
  rw [isLive_of_frames hframes, isLive_cons, decide_eq_true_iff, hactive]

theorem judges_openFrame (u : SourceUnit) {opening : Opening} (mark : Location)
    (h : r.isLive = true → HasOperand opening rest) :
    Judges (.opening opening) mark rest r (r.openFrame u opening rest mark) := by
  cases hlive : r.isLive with
  | true =>
    obtain ⟨heffect, hframes, -⟩ := openFrame_live (u := u) mark hlive (h hlive)
    refine judges_of_effect heffect hframes ?_
    cases Effect.opens u r.table opening rest mark with
    | true => exact iff_of_true rfl rfl
    | false => exact iff_of_false nofun nofun
  | false =>
    rw [openFrame_dead u opening rest mark hlive]
    exact ⟨none, rfl, iff_of_false nofun nofun⟩

theorem judges_elseIf {frame : Frame} {outer : List Frame} (u : SourceUnit) (rest : List Token)
    (mark : Location) (hframes : r.frames = frame :: outer) (first : frame.elseSeen = false) :
    Judges .elseIf mark rest r (r.elseIf u frame rest mark) := by
  obtain ⟨live, taken, hstands⟩ := Frame.exists_stands first
  obtain ⟨heffect, -, frame', hframes', -, hactive⟩ := elseIf_spec u rest mark hframes hstands
  exact judges_of_effect heffect hframes' hactive

theorem judges_otherwise {frame : Frame} (outer : List Frame) (rest : List Token) (mark : Location)
    (first : frame.elseSeen = false) :
    Judges .otherwise mark rest r (r.otherwise frame outer rest mark) := by
  obtain ⟨live, taken, hstands⟩ := Frame.exists_stands first
  have hspec : (r.otherwise frame outer rest mark).effect = _ ∧ _ ∧ _ :=
    otherwise_spec rest mark hstands
  obtain ⟨heffect, -, frame', hframes', hactive⟩ := hspec
  exact judges_of_effect heffect hframes' hactive

/-- A directive that begins a branch is judged, unless it lacks its name. -/
theorem judges_conditional (u : SourceUnit) (r : Run) {c : Conditional} (rest : List Token)
    (mark : Location) (hbegins : c.begins r.frames = true)
    (hnamed : r.isLive = true → c.isNameless rest = false) :
    Judges c mark rest r (r.conditional u c rest mark) := by
  cases c with
  | opening opening =>
    rw [conditional_opening]
    exact judges_openFrame u mark fun hlive => hasOperand_iff.mpr (hnamed hlive)
  | closing => cases hbegins
  | elseIf =>
    cases hframes : r.frames with
    | nil =>
      rw [hframes] at hbegins
      cases hbegins
    | cons frame outer =>
      have first : frame.elseSeen = false := by simpa [hframes, Conditional.begins] using hbegins
      simp only [conditional, hframes, first, Bool.false_eq_true, if_false]
      exact judges_elseIf u rest mark hframes first
  | otherwise =>
    cases hframes : r.frames with
    | nil =>
      rw [hframes] at hbegins
      cases hbegins
    | cons frame outer =>
      have first : frame.elseSeen = false := by simpa [hframes, Conditional.begins] using hbegins
      simp only [conditional, hframes, first, Bool.false_eq_true, if_false]
      exact judges_otherwise outer rest mark first

/-- A directive that begins no branch is not judged. -/
theorem verdicts_conditional (u : SourceUnit) (r : Run) {c : Conditional} (rest : List Token)
    (mark : Location) (hbegins : c.begins r.frames = false) :
    (r.conditional u c rest mark).verdicts = r.verdicts := by
  cases c with
  | opening opening => cases hbegins
  | closing =>
    cases hframes : r.frames with
    | nil => simp only [conditional, hframes, refuse, record]
    | cons frame outer =>
      simp only [conditional, hframes]
      exact congrArg Effect.verdicts (OnlyNotes.warnExtraInside r .closing rest).effect
  | elseIf | otherwise =>
    cases hframes : r.frames with
    | nil => simp only [conditional, hframes, refuse, record]
    | cons frame outer =>
      have late : frame.elseSeen = true := by simpa [hframes, Conditional.begins] using hbegins
      simp only [conditional, hframes, late, if_true, refuse, record]

/-- An opening directive without its name is refused when its frame is open already. -/
theorem openFrame_nameless {opening : Opening} (u : SourceUnit) (mark : Location)
    (hlive : r.isLive = true) (h : (Conditional.opening opening).isNameless rest = true) :
    ∃ fault, macroName opening.name rest mark = .error fault ∧
      r.openFrame u opening rest mark =
        { r with frames := { opening, branch := .awaiting, location := mark } :: r.frames }.record
          (DirectiveFault.report fault (u.quote? mark)) := by
  have hfault : ∃ fault, macroName opening.name rest mark = .error fault := by
    unfold macroName
    cases hrest : significant rest with
    | nil => exact ⟨_, rfl⟩
    | cons name extra =>
      have hname : name.isIdentifier = false := by
        cases opening <;> simp_all [Conditional.isNameless]
      simp only [hname]
      exact ⟨_, rfl⟩
  obtain ⟨fault, hfault⟩ := hfault
  refine ⟨fault, hfault, ?_⟩
  simp only [openFrame, hlive, if_true]
  cases opening with
  | ifTrue => cases h
  | ifDefined => simp only [hfault]
  | ifUndefined => simp only [hfault]

/-! ## Steps -/

/-- What a line with a conditional directive does. -/
theorem take_eq_conditional {c : Conditional} (line : List Scanned) (h : ConditionalLine c)
    (hline : line.map Scanned.token = h.tokens) :
    take u r line =
      (((r.noteFaults u line).flush u).conditional u c h.rest h.mark.location).checkJournal := by
  rw [take, takeLine, hline, h.form]
  simp only [directive, h.keyword]

namespace Step

variable {s : Step}

/-- Whether a step begins a branch. -/
def begins (s : Step) : Bool := s.form.conditional?.any (Conditional.begins s.before.frames)

/-- Whether a step opens a frame in live text, but names no macro. -/
def isNameless (s : Step) : Bool := s.before.isLive && s.form.isNameless

/-- Whether a verdict is the one on a step: on its directive, where it is and as it is written, and
taken exactly if text is live after the step. -/
structure Judged (u : SourceUnit) (s : Step) (v : Verdict) : Prop where
  directive : ∃ line : ConditionalLine v.directive, s.line.map Scanned.token = line.tokens ∧
    v.location = line.mark.location ∧ v.condition = conditionText line.rest
  taken : v.taken = some true ↔ (s.after u).isLive = true

theorem exists_conditionalLine {c : Conditional} (h : s.form.conditional? = some c) :
    ∃ line : ConditionalLine c, s.line.map Scanned.token = line.tokens ∧
      s.form = .directive line.mark line.name line.rest := by
  unfold LineForm.conditional? at h
  split at h
  · rename_i mark name rest hform
    split at h
    · rename_i c' hkeyword
      obtain rfl := Option.some.inj h
      exact ⟨⟨_, mark, name, rest, hform, hkeyword⟩, rfl, hform⟩
    · cases h
  · cases h

/-- A line without a conditional directive is not judged. -/
theorem verdicts_after_of_none (u : SourceUnit) (h : s.form.conditional? = none) :
    (s.after u).verdicts = s.before.verdicts := by
  by_cases htext : s.form = .text
  · exact congrArg Effect.verdicts (take_text (u := u) htext).1
  · have hplain := take_plain (u := u) (r := s.before) s.line
      ⟨_, LineForm.isPlain_of_conditional? h htext⟩ rfl
    have hverdicts := congrArg Effect.verdicts hplain.1
    split at hverdicts
    · exact hverdicts.trans (Effect.verdicts_plain ..)
    · exact hverdicts

/-- A step with a conditional directive goes on from where its lexical faults are entered and the text
that waits is put out. -/
theorem exists_conditional {c : Conditional} (u : SourceUnit) (h : s.form.conditional? = some c) :
    ∃ (line : ConditionalLine c) (r : Run), s.line.map Scanned.token = line.tokens ∧
      s.form = .directive line.mark line.name line.rest ∧ r.frames = s.before.frames ∧
      r.verdicts = s.before.verdicts ∧
      s.after u = (r.conditional u c line.rest line.mark.location).checkJournal := by
  obtain ⟨line, hline, hform⟩ := exists_conditionalLine h
  have hnoted := OnlyNotes.noteFaults (u := u) s.before s.line
  obtain ⟨heffect, hframes, -⟩ := flush_spec u (s.before.noteFaults u s.line)
  refine ⟨line, (s.before.noteFaults u s.line).flush u, hline, hform, hframes.trans hnoted.frames,
    ?_, take_eq_conditional s.line line hline⟩
  exact (congrArg Effect.verdicts heffect).trans (congrArg Effect.verdicts hnoted.effect)

theorem exists_of_isNameless {form : LineForm} (h : form.isNameless = true) :
    ∃ c, form.conditional? = some c := by
  unfold LineForm.isNameless at h
  split at h
  · split at h
    · rename_i c hkeyword
      exact ⟨c, by simp only [LineForm.conditional?, hkeyword]⟩
    · cases h
  · cases h

theorem isNameless_eq {c : Conditional} {line : ConditionalLine c}
    (hform : s.form = .directive line.mark line.name line.rest) :
    s.isNameless = (s.before.isLive && c.isNameless line.rest) := by
  rw [isNameless, hform, LineForm.isNameless]
  simp only [line.keyword]

/-- A step without its name opens a frame. -/
theorem begins_of_isNameless (h : s.isNameless = true) : s.begins = true := by
  obtain ⟨c, hc⟩ := exists_of_isNameless (Bool.and_eq_true_iff.mp h).2
  obtain ⟨line, -, hform⟩ := exists_conditionalLine hc
  rw [isNameless_eq hform] at h
  rw [begins, hc, Option.any_some]
  cases c with
  | opening opening => rfl
  | _ => exact absurd h (by simp [Conditional.isNameless])

/-- A step that begins a branch is judged, unless it names no macro. -/
theorem exists_judged (u : SourceUnit) (hbegins : s.begins = true) (hnamed : s.isNameless = false) :
    ∃ v, (s.after u).verdicts = s.before.verdicts ++ [v] ∧ s.Judged u v := by
  obtain ⟨c, hc, hbegins⟩ := (Option.any_eq_true _ _).mp hbegins
  obtain ⟨line, r, hline, hform, hframes, hverdicts, hafter⟩ := exists_conditional u hc
  rw [isNameless_eq hform, isLive, ← hframes, ← isLive, Bool.and_eq_false_imp] at hnamed
  rw [← hframes] at hbegins
  obtain ⟨taken, hjudged, htaken⟩ :=
    judges_conditional u r line.rest line.mark.location hbegins hnamed
  have hnotes := OnlyNotes.checkJournal (r.conditional u c line.rest line.mark.location)
  rw [← hafter] at hnotes
  refine ⟨_, (congrArg Effect.verdicts hnotes.effect).trans (hverdicts ▸ hjudged), ?_, ?_⟩
  · exact ⟨line, hline, rfl, rfl⟩
  · rw [htaken, hnotes.isLive]

/-- What a step without its name does: its frame is open and waits for a branch, and an error is
entered. -/
theorem after_of_isNameless (u : SourceUnit) (h : s.isNameless = true) :
    ∃ (opening : Opening) (line : ConditionalLine (.opening opening)) (fault : Located DirectiveFault),
      s.line.map Scanned.token = line.tokens ∧
      macroName opening.name line.rest line.mark.location = .error fault ∧
      (s.after u).frames =
        { opening, branch := .awaiting, location := line.mark.location } :: s.before.frames ∧
      (s.after u).verdicts = s.before.verdicts ∧
      .error (DirectiveFault.report fault (u.quote? line.mark.location)) false ∈
        (s.after u).journal.entries := by
  obtain ⟨hlive, hname⟩ := Bool.and_eq_true_iff.mp h
  obtain ⟨c, hc⟩ := exists_of_isNameless hname
  obtain ⟨line, r, hline, hform, hframes, hverdicts, hafter⟩ := exists_conditional u hc
  rw [isNameless_eq hform, hlive, Bool.true_and] at h
  rw [isLive, ← hframes, ← isLive] at hlive
  cases c with
  | opening opening =>
    obtain ⟨fault, hfault, hopen⟩ := openFrame_nameless u line.mark.location hlive h
    rw [conditional_opening, hopen] at hafter
    have hnotes := OnlyNotes.checkJournal (Run.record
      { r with frames := { opening, branch := .awaiting, location := line.mark.location } :: r.frames }
      (DirectiveFault.report fault (u.quote? line.mark.location)))
    rw [← hafter] at hnotes
    refine ⟨opening, line, fault, hline, hfault, hnotes.frames.trans (by rw [← hframes]; rfl),
      (congrArg Effect.verdicts hnotes.effect).trans hverdicts, ?_⟩
    rw [hafter]
    refine (Extends.checkJournal _).entries.subset ?_
    exact List.mem_append_right _ (List.mem_singleton_self _)
  | _ => cases h

theorem verdicts_after_of_not (u : SourceUnit) (h : s.begins = false ∨ s.isNameless = true) :
    (s.after u).verdicts = s.before.verdicts := by
  rcases h with h | h
  · cases hc : s.form.conditional? with
    | none => exact verdicts_after_of_none u hc
    | some c =>
      obtain ⟨line, r, -, -, hframes, hverdicts, hafter⟩ := exists_conditional u hc
      rw [begins, hc, Option.any_some, ← hframes] at h
      have hnotes := OnlyNotes.checkJournal (r.conditional u c line.rest line.mark.location)
      rw [← hafter] at hnotes
      exact (congrArg Effect.verdicts hnotes.effect).trans
        ((verdicts_conditional u r line.rest line.mark.location h).trans hverdicts)
  · obtain ⟨-, -, -, -, -, -, hverdicts, -⟩ := after_of_isNameless u h
    exact hverdicts

/-- What a step adds to the verdicts. -/
theorem exists_verdicts (u : SourceUnit) (s : Step) :
    ∃ vs, (s.after u).verdicts = s.before.verdicts ++ vs ∧
      List.Forall₂ (Judged u) ([s].filter fun s => s.begins && !s.isNameless) vs := by
  cases hjudged : s.begins && !s.isNameless with
  | true =>
    obtain ⟨hbegins, hnamed⟩ := Bool.and_eq_true_iff.mp hjudged
    obtain ⟨v, hverdicts, hv⟩ := exists_judged u hbegins (Bool.not_eq_true' _ ▸ hnamed)
    refine ⟨[v], hverdicts, ?_⟩
    rw [List.filter_singleton, hjudged]
    exact .cons hv .nil
  | false =>
    have h : s.begins = false ∨ s.isNameless = true := by
      rw [Bool.and_eq_false_iff, Bool.not_eq_false'] at hjudged
      exact hjudged
    refine ⟨[], by rw [verdicts_after_of_not u h, List.append_nil], ?_⟩
    rw [List.filter_singleton, hjudged]
    exact .nil

end Step

theorem verdicts_reached (u : SourceUnit) (r : Run) (lines : List (List Scanned)) :
    ∃ vs, (Run.reached u r lines).verdicts = r.verdicts ++ vs ∧
      List.Forall₂ (Step.Judged u)
        ((Run.steps u r lines).filter fun s => s.begins && !s.isNameless) vs := by
  induction lines generalizing r with
  | nil => exact ⟨[], (List.append_nil _).symm, .nil⟩
  | cons line lines ih =>
    rw [Run.reached, Run.steps]
    split
    · exact ⟨[], (List.append_nil _).symm, .nil⟩
    · obtain ⟨vs, hvs, hjudged⟩ := Step.exists_verdicts u ⟨r, line⟩
      obtain ⟨ws, hws, hrest⟩ := ih (take u r line)
      refine ⟨vs ++ ws, ?_, ?_⟩
      · rw [hws, ← List.append_assoc, ← hvs]
        rfl
      · rw [← List.singleton_append, List.filter_append]
        exact List.rel_append hjudged hrest

theorem verdicts_start_eq (u : SourceUnit) (table : Table) :
    (start u table).verdicts = (u.reached table).verdicts := by
  rw [start_eq]
  split
  · exact congrArg Effect.verdicts (OnlyNotes.noteFaults ..).effect
  · exact verdicts_finish u _

/-- Every directive that begins a branch gets one verdict, in the order of the source, and it is taken
exactly if text is live after the directive. Left out are those that open a frame in live text but name
no macro: their frame waits for a branch, and an error is entered in the place of a verdict. So there is
a verdict for each branch exactly if there is no such directive. -/
theorem verdicts_start (u : SourceUnit) (table : Table) :
    (u.steps table).map Step.line <+: u.source.logicalLines ∧
      List.Forall₂ (Step.Judged u)
        ((u.steps table).filter fun s => s.begins && !s.isNameless) (start u table).verdicts ∧
      (∀ s ∈ u.steps table, s.isNameless = true →
        s.begins = true ∧ ∃ (opening : Opening) (line : ConditionalLine (.opening opening))
          (fault : Located DirectiveFault), s.line.map Scanned.token = line.tokens ∧
          macroName opening.name line.rest line.mark.location = .error fault ∧
          (s.after u).frames =
            { opening, branch := .awaiting, location := line.mark.location } :: s.before.frames ∧
          .error (DirectiveFault.report fault (u.quote? line.mark.location)) false ∈
            (start u table).journal.entries) ∧
      (List.Forall₂ (Step.Judged u) ((u.steps table).filter Step.begins) (start u table).verdicts ↔
        ∀ s ∈ u.steps table, s.isNameless = false) := by
  have hjudged : List.Forall₂ (Step.Judged u)
      ((u.steps table).filter fun s => s.begins && !s.isNameless) (start u table).verdicts := by
    obtain ⟨vs, hvs, hjudged⟩ := verdicts_reached u (initial u table) u.source.logicalLines
    rw [verdicts_start_eq, SourceUnit.reached, hvs]
    exact hjudged
  refine ⟨prefix_map_line u table, hjudged, fun s hs h => ⟨s.begins_of_isNameless h, ?_⟩, ?_, fun h => ?_⟩
  · obtain ⟨opening, line, fault, hline, hfault, hframes, -, herror⟩ := Step.after_of_isNameless u h
    exact ⟨opening, line, fault, hline, hfault, hframes, (prefix_entries hs).subset herror⟩
  · intro hall s hs
    -- as many steps are left when those without a name are left out
    have hlength := hall.length_eq.trans hjudged.length_eq.symm
    have hfilter : ((u.steps table).filter fun s => s.begins && !s.isNameless) =
        ((u.steps table).filter Step.begins).filter fun s => !s.isNameless := by
      rw [List.filter_filter]
      exact List.filter_congr fun s _ => Bool.and_comm ..
    rw [hfilter] at hlength
    have hnone := List.length_filter_eq_length_iff.mp hlength.symm
    by_contra h
    have h : s.isNameless = true := by simpa using h
    have hmem := hnone s (List.mem_filter.mpr ⟨hs, s.begins_of_isNameless h⟩)
    rw [h] at hmem
    cases hmem
  · have hfilter : ((u.steps table).filter fun s => s.begins && !s.isNameless) =
        (u.steps table).filter Step.begins := by
      refine List.filter_congr fun s hs => ?_
      rw [h s hs, Bool.not_false, Bool.and_true]
    rwa [hfilter] at hjudged

/-- An `#ifdef` alone begins a branch, but there is no verdict. -/
theorem verdicts_start_nameless :
    let u : SourceUnit := { source := { text := "#ifdef\n#endif\n" } }
    ¬ List.Forall₂ (Step.Judged u) ((u.steps ∅).filter Step.begins) (start u ∅).verdicts ∧
      (start u ∅).verdicts = [] ∧
      (start u ∅).journal.entries.map Diagnostic.message =
        ["no macro name given in #ifdef directive"] := by
  intro u
  have hbegins : ((u.steps ∅).filter Step.begins).length = 1 := by decide +kernel
  have hverdicts : (start u ∅).verdicts = [] := by decide +kernel
  refine ⟨fun h => ?_, hverdicts, by decide +kernel⟩
  have hlength := h.length_eq
  rw [hbegins, hverdicts] at hlength
  cases hlength

end Run

end CPreprocessor
