import Mathlib
import CPreprocessor.Proofs.Directive.Journal
import CPreprocessor.Proofs.Directive.Meaning
import CPreprocessor.Proofs.Expansion.Run

/-!
# Frames select branches

What a run does with a line, in terms of what lines bring about: text waits, directives act on the macros,
and the conditional ones move the stack of frames that a run keeps.
-/

namespace CPreprocessor

theorem isLive_cons {frame : Frame} {outer : List Frame} :
    isLive (frame :: outer) = decide (frame.branch = .active) := by
  simp [isLive]

namespace Run

def effect (r : Run) : Effect := ⟨r.table, r.output, r.verdicts⟩

/-- A step that enters something into the journal at most. -/
structure OnlyNotes (r r' : Run) : Prop where
  effect : r'.effect = r.effect
  frames : r'.frames = r.frames
  pending : r'.pending = r.pending

variable {u : SourceUnit} {r r₁ r₂ r₃ : Run}

theorem isLive_of_frames {frames : List Frame} (h : r.frames = frames) :
    r.isLive = CPreprocessor.isLive frames := by rw [isLive, h]

namespace OnlyNotes

theorem refl (r : Run) : OnlyNotes r r := ⟨rfl, rfl, rfl⟩

theorem trans (h₁ : OnlyNotes r₁ r₂) (h₂ : OnlyNotes r₂ r₃) : OnlyNotes r₁ r₃ :=
  ⟨h₂.effect.trans h₁.effect, h₂.frames.trans h₁.frames, h₂.pending.trans h₁.pending⟩

theorem foldl {α : Type} {step : Run → α → Run} (h : ∀ r a, OnlyNotes r (step r a)) (as : List α)
    (r : Run) : OnlyNotes r (as.foldl step r) := by
  induction as generalizing r with
  | nil => exact refl r
  | cons a as ih => exact (h r a).trans (ih _)

theorem record (r : Run) (report : Report) : OnlyNotes r (r.record report) := ⟨rfl, rfl, rfl⟩

theorem warn (r : Run) (message : String) (location : Option Location) :
    OnlyNotes r (r.warn message location) := ⟨rfl, rfl, rfl⟩

theorem warnExtra (r : Run) (directive : String) (extra : List Token) :
    OnlyNotes r (r.warnExtra directive extra) := by
  cases extra with
  | nil => exact refl r
  | cons t ts => exact warn ..

theorem warnExtraInside (r : Run) (directive : Conditional) (rest : List Token) :
    OnlyNotes r (r.warnExtraInside directive rest) := by
  rw [Run.warnExtraInside]
  split
  · exact warnExtra ..
  · exact refl r

theorem noteFaults (r : Run) (line : List Scanned) : OnlyNotes r (r.noteFaults u line) := by
  rw [Run.noteFaults]
  split
  · exact foldl record _ _
  · exact refl r

theorem checkJournal (r : Run) : OnlyNotes r r.checkJournal := by
  rw [Run.checkJournal]
  split
  · exact ⟨rfl, rfl, rfl⟩
  · exact refl r

theorem isLive (h : OnlyNotes r₁ r₂) : r₂.isLive = r₁.isLive := by
  rw [Run.isLive, h.frames, Run.isLive]

end OnlyNotes

/-! ## Runs that are not stopped -/

/-- Takes one line, with its lexical faults. -/
def take (u : SourceUnit) (r : Run) (line : List Scanned) : Run :=
  ((r.noteFaults u line).takeLine u (line.map Scanned.token)).checkJournal

theorem Extends.take (r : Run) (line : List Scanned) : Extends r (Run.take u r line) :=
  ((noteFaults r line).trans (takeLine ..)).trans (checkJournal _)

theorem Extends.foldl_take (r : Run) (lines : List (List Scanned)) :
    Extends r (lines.foldl (Run.take u) r) :=
  foldl take lines r

theorem aborted_noteFaults (line : List Scanned) : (r.noteFaults u line).aborted = r.aborted := by
  have h : ∀ (reports : List Report) (r : Run), (reports.foldl record r).aborted = r.aborted := by
    intro reports
    induction reports with
    | nil => exact fun r => rfl
    | cons report reports ih => exact fun r => ih (r.record report)
  rw [noteFaults]
  split
  · exact h ..
  · rfl

theorem takeLines_aborted (lines : List (List Scanned)) (h : r.aborted = true) :
    (takeLines u r lines).aborted = true := by
  cases lines with
  | nil => exact h
  | cons line lines =>
    have haborted : (r.noteFaults u line).aborted = true := by rw [aborted_noteFaults, h]
    rw [takeLines, if_pos haborted]
    exact haborted

theorem takeLines_of_not_aborted {lines : List (List Scanned)}
    (h : (takeLines u r lines).aborted = false) : takeLines u r lines = lines.foldl (take u) r := by
  induction lines generalizing r with
  | nil => rfl
  | cons line lines ih =>
    rw [takeLines] at h ⊢
    split at h
    · rename_i haborted
      rw [haborted] at h
      cases h
    · rename_i haborted
      rw [if_neg haborted]
      exact ih h

/-! ## Text -/

theorem effect_expandLines (lines : List (List Token)) :
    (lines.foldl (expandLine u) r).table = r.table ∧
      (lines.foldl (expandLine u) r).verdicts = r.verdicts ∧
      (lines.foldl (expandLine u) r).frames = r.frames ∧
      (lines.foldl (expandLine u) r).pending = r.pending ∧
      (lines.foldl (expandLine u) r).output = r.output ++
        (lines.flatMap fun line =>
          match (u.expander r.table).expand line with
          | .ok expansion => expansion.tokens
          | .error _ => []).map (outputToken u.setup.keepComments) := by
  induction lines generalizing r with
  | nil => simp
  | cons line lines ih =>
    rw [List.foldl_cons, List.flatMap_cons, List.map_append, ← List.append_assoc]
    have h := ih (r := expandLine u r line)
    unfold expandLine at h ⊢
    cases hline : (u.expander r.table).expand line with
    | error error =>
      simp only [hline] at h ⊢
      simpa [record] using h
    | ok expansion =>
      simp only [hline] at h ⊢
      simpa [emit] using h

theorem expansion_nil (table : Table) : Effect.expansion u table [] = [] := by
  simp only [Effect.expansion, List.flatten_nil, Expander.expand, List.filter_nil,
    Expander.run_nil, Except.map]
  rfl

theorem flush_spec (u : SourceUnit) (r : Run) :
    (r.flush u).effect = r.effect.text u r.pending ∧ (r.flush u).frames = r.frames ∧
      (r.flush u).pending = [] := by
  simp only [flush]
  by_cases hnil : r.pending = []
  · rw [hnil, Effect.text, expansion_nil]
    simp [effect]
  · rw [if_neg (by simpa using hnil), Effect.text, Effect.expansion]
    simp only [effect]
    cases (u.expander r.table).expand r.pending.flatten with
    | ok expansion => exact ⟨rfl, rfl, rfl⟩
    | error error =>
      obtain ⟨htable, hverdicts, hframes, hpending, houtput⟩ :=
        effect_expandLines (u := u) (r := { r with pending := [] }) r.pending
      exact ⟨congr (congr (congrArg Effect.mk htable) houtput) hverdicts, hframes, hpending⟩

/-- What a step does besides its notes in the journal. -/
theorem take_spec (line : List Scanned) :
    ∃ r' : Run, OnlyNotes r r' ∧
      OnlyNotes (r'.takeLine u (line.map Scanned.token)) (take u r line) :=
  ⟨_, .noteFaults r line, .checkJournal _⟩

theorem take_text {line : List Scanned} (h : LineForm.of (line.map Scanned.token) = .text) :
    (take u r line).effect = r.effect ∧ (take u r line).frames = r.frames ∧
      (take u r line).pending =
        if r.isLive then r.pending ++ [line.map Scanned.token] else r.pending := by
  obtain ⟨r', hbefore, hafter⟩ := take_spec (u := u) (r := r) line
  rw [hafter.effect, hafter.frames, hafter.pending, ← hbefore.effect, ← hbefore.frames,
    ← hbefore.pending, ← hbefore.isLive, takeLine, h]
  simp only
  split
  · exact ⟨rfl, rfl, rfl⟩
  · exact ⟨rfl, rfl, rfl⟩

/-- Text lines wait if they are live. -/
theorem take_texts {lines : List (List Scanned)} {texts : List TextLine}
    (h : lines.map (·.map Scanned.token) = textTokens texts) :
    (lines.foldl (take u) r).effect = r.effect ∧ (lines.foldl (take u) r).frames = r.frames ∧
      (lines.foldl (take u) r).pending =
        if r.isLive then r.pending ++ textTokens texts else r.pending := by
  induction lines generalizing r texts with
  | nil =>
    rw [← h]
    simp
  | cons line lines ih =>
    cases texts with
    | nil => cases h
    | cons text texts =>
      have hline : line.map Scanned.token = text.val := (List.cons.inj h).1
      have hlines := (List.cons.inj h).2
      have htext : LineForm.of (line.map Scanned.token) = .text := by rw [hline, text.property]
      obtain ⟨heffect, hframes, hpending⟩ := take_text (u := u) (r := r) htext
      obtain ⟨heffect', hframes', hpending'⟩ := ih (r := take u r line) hlines
      have hlive : (take u r line).isLive = r.isLive := by rw [isLive, hframes, isLive]
      rw [List.foldl_cons, heffect', hframes', hpending', hlive, heffect, hframes, hpending, hline]
      refine ⟨rfl, rfl, ?_⟩
      split
      · rw [List.append_assoc]
        rfl
      · rfl

/-! ## Directives -/

theorem define_spec (r : Run) (rest : List Token) (mark : Location) :
    (r.define rest mark).effect =
        { r.effect with table := Effect.defined r.table rest mark } ∧
      (r.define rest mark).frames = r.frames ∧ (r.define rest mark).pending = r.pending := by
  unfold define Effect.defined
  cases Definition.parse rest mark false with
  | error fault => exact ⟨rfl, rfl, rfl⟩
  | ok d =>
    simp only
    split
    · exact ⟨rfl, rfl, rfl⟩
    · cases r.table.conflict? d with
      | none => exact ⟨rfl, rfl, rfl⟩
      | some conflict => exact ⟨rfl, rfl, rfl⟩

theorem undefine_spec (u : SourceUnit) (r : Run) (rest : List Token) (mark : Location) :
    (r.undefine u rest mark).effect =
        { r.effect with table := Effect.undefined r.table rest } ∧
      (r.undefine u rest mark).frames = r.frames ∧
      (r.undefine u rest mark).pending = r.pending := by
  unfold undefine macroName Effect.undefined
  cases significant rest with
  | nil => exact ⟨rfl, rfl, rfl⟩
  | cons name extra =>
    simp only
    by_cases hname : name.isIdentifier = true
    · have h := OnlyNotes.warnExtra r "undef" extra
      simp only [hname, if_true]
      generalize r.warnExtra "undef" extra = r' at h ⊢
      have hoperation : ∀ r'' : Run, OnlyNotes r' r'' →
          Run.effect { r'' with table := r''.table.undefine name.text name.location } =
              { r.effect with table := r.table.undefine name.text name.location } ∧
            r''.frames = r.frames ∧ r''.pending = r.pending := by
        intro r'' h'
        have heffect := (h.trans h').effect
        simp only [effect, Effect.mk.injEq] at heffect ⊢
        obtain ⟨htable, houtput, hverdicts⟩ := heffect
        rw [htable, houtput, hverdicts]
        exact ⟨⟨rfl, rfl, rfl⟩, (h.trans h').frames, (h.trans h').pending⟩
      split
      · exact hoperation _ (.warn ..)
      · exact hoperation _ (.refl _)
    · rw [if_neg hname, if_neg hname]
      exact ⟨rfl, rfl, rfl⟩

/-- A directive that is not conditional counts in live text only, and moves no frame. -/
theorem directive_spec (u : SourceUnit) (r : Run) (mark : Token) {name : Token} (rest : List Token)
    (h : ∀ c, Keyword.ofText? name.text ≠ some (.conditional c)) :
    (r.directive u mark name rest).effect =
        (if r.isLive then
          match Keyword.ofText? name.text with
          | some .define => { r.effect with table := Effect.defined r.table rest mark.location }
          | some .undefine => { r.effect with table := Effect.undefined r.table rest }
          | _ => r.effect
        else r.effect) ∧
      (r.directive u mark name rest).frames = r.frames ∧
      (r.directive u mark name rest).pending = r.pending := by
  unfold directive
  cases hkeyword : Keyword.ofText? name.text with
  | none =>
    simp only
    split
    · exact ⟨rfl, rfl, rfl⟩
    · exact ⟨rfl, rfl, rfl⟩
  | some keyword =>
    cases hlive : r.isLive with
    | false =>
      cases keyword with
      | conditional c => exact absurd hkeyword (h c)
      | _ => exact ⟨rfl, rfl, rfl⟩
    | true =>
      cases keyword with
      | conditional c => exact absurd hkeyword (h c)
      | define => exact define_spec ..
      | undefine => exact undefine_spec ..
      | _ => exact ⟨rfl, rfl, rfl⟩

/-- A directive line is taken with no text left to wait. -/
theorem take_plain (line : List Scanned) (plain : PlainLine)
    (h : line.map Scanned.token = plain.val) :
    (take u r line).effect =
        (if r.isLive then (r.effect.text u r.pending).plain plain
          else r.effect.text u r.pending) ∧
      (take u r line).frames = r.frames ∧ (take u r line).pending = [] := by
  obtain ⟨r', hbefore, hafter⟩ := take_spec (u := u) (r := r) line
  obtain ⟨heffect, hframes, hpending⟩ := flush_spec u r'
  have hlive : (r'.flush u).isLive = r'.isLive := by rw [isLive, hframes, isLive]
  rw [hafter.effect, hafter.frames, hafter.pending, ← hbefore.effect, ← hbefore.frames,
    ← hbefore.pending, ← hbefore.isLive, takeLine, h, Effect.plain, ← heffect, ← hframes, ← hlive,
    ← hpending]
  have hplain := plain.property
  generalize r'.flush u = r''
  cases hform : LineForm.of plain.val with
  | text =>
    rw [hform] at hplain
    exact absurd hplain not_false
  | nothing => exact ⟨by simp, rfl, rfl⟩
  | invalid mark name =>
    simp only [ite_self]
    split
    · exact ⟨rfl, rfl, rfl⟩
    · exact ⟨rfl, rfl, rfl⟩
  | directive mark name rest =>
    rw [hform] at hplain
    exact directive_spec _ _ _ _ hplain

/-! ## Conditional directives -/

theorem test_spec (u : SourceUnit) (r : Run) (rest : List Token) (mark : Location) :
    OnlyNotes r (r.test u rest mark).1 ∧
      (r.test u rest mark).2 = Effect.holds u r.table rest mark := by
  have h : OnlyNotes r (if u.setup.warnUndefined then
      (u.evaluate r.table rest mark).2.foldl (fun r t =>
        r.warn ("'" ++ t.text ++ "' is not defined, evaluates to 0") t.location) r else r) := by
    split
    · exact .foldl (fun r t => .warn ..) _ _
    · exact .refl r
  simp only [test, Effect.holds]
  cases (u.evaluate r.table rest mark).1 with
  | ok value => exact ⟨h, rfl⟩
  | error report => exact ⟨h.trans (.record ..), rfl⟩

theorem select_spec {frame : Frame} {outer : List Frame} (directive : Conditional)
    (mark : Location) (taken : Bool) (rest : List Token) (h : r.frames = frame :: outer) :
    (r.select directive mark taken rest).effect =
        r.effect.add ⟨directive, mark, some taken, conditionText rest⟩ ∧
      (r.select directive mark taken rest).frames =
        { frame with branch := if taken then .active else frame.branch } :: outer ∧
      (r.select directive mark taken rest).pending = r.pending := by
  unfold select setBranch
  cases taken with
  | false => exact ⟨rfl, h, rfl⟩
  | true =>
    rw [h]
    exact ⟨rfl, rfl, rfl⟩

end Run

/-- Whether an opening directive has the operand that it needs. -/
def HasOperand (opening : Opening) (rest : List Token) : Prop :=
  opening = .ifTrue ∨ ∃ name extra, significant rest = name :: extra ∧ name.isIdentifier = true

namespace Run

variable {u : SourceUnit} {r : Run}

theorem openFrame_live {opening : Opening} {rest : List Token} (mark : Location)
    (hlive : r.isLive = true) (h : HasOperand opening rest) :
    (r.openFrame u opening rest mark).effect =
        r.effect.add ⟨.opening opening, mark,
          some (Effect.opens u r.table opening rest mark), conditionText rest⟩ ∧
      (r.openFrame u opening rest mark).frames =
        { opening,
          branch := if Effect.opens u r.table opening rest mark then .active else .awaiting,
          location := mark } :: r.frames ∧
      (r.openFrame u opening rest mark).pending = r.pending := by
  have hoperand : opening ≠ .ifTrue →
      ∃ name extra, macroName opening.name rest mark = .ok (name, extra) ∧
        (significant rest).head? = some name := by
    intro hne
    obtain ⟨name, extra, hrest, hname⟩ := h.resolve_left hne
    exact ⟨name, extra, by simp [macroName, hrest, hname], by rw [hrest]; rfl⟩
  simp only [openFrame, hlive, if_true]
  generalize hframe : (⟨opening, .awaiting, mark, false⟩ : Frame) = frame
  cases opening with
  | ifTrue =>
    obtain ⟨hnotes, htaken⟩ := test_spec u { r with frames := frame :: r.frames } rest mark
    simp only [Effect.opens, ← htaken]
    generalize Run.test _ u rest mark = tested at hnotes ⊢
    obtain ⟨r', taken⟩ := tested
    obtain ⟨heffect, hframes, hpending⟩ :=
      select_spec (.opening .ifTrue) mark taken rest hnotes.frames
    rw [heffect, hframes, hpending, hnotes.effect, hnotes.pending, ← hframe]
    exact ⟨rfl, rfl, rfl⟩
  | ifDefined =>
    obtain ⟨name, extra, hname, hhead⟩ := hoperand (by decide)
    have hnotes := OnlyNotes.warnExtra { r with frames := frame :: r.frames } "ifdef" extra
    obtain ⟨heffect, hframes, hpending⟩ :=
      select_spec (.opening .ifDefined) mark (r.table.isDefined name.text) rest hnotes.frames
    have htaken : decide ((r.table.isDefined name.text = true) = True) =
        r.table.isDefined name.text := by simp
    simp only [Opening.name] at hname ⊢
    simp only [hname, Effect.opens, hhead, Option.any_some, htaken]
    rw [heffect, hframes, hpending, hnotes.effect, hnotes.pending, ← hframe]
    exact ⟨rfl, rfl, rfl⟩
  | ifUndefined =>
    obtain ⟨name, extra, hname, hhead⟩ := hoperand (by decide)
    have hnotes := OnlyNotes.warnExtra { r with frames := frame :: r.frames } "ifndef" extra
    obtain ⟨heffect, hframes, hpending⟩ :=
      select_spec (.opening .ifUndefined) mark (!r.table.isDefined name.text) rest hnotes.frames
    have htaken : decide ((r.table.isDefined name.text = true) = False) =
        !r.table.isDefined name.text := by simp
    simp only [Opening.name] at hname ⊢
    simp only [hname, Effect.opens, hhead, Option.any_some, reduceCtorEq, htaken]
    rw [heffect, hframes, hpending, hnotes.effect, hnotes.pending, ← hframe]
    exact ⟨rfl, rfl, rfl⟩

theorem openFrame_dead (u : SourceUnit) (opening : Opening) (rest : List Token) (mark : Location)
    (hlive : r.isLive = false) :
    r.openFrame u opening rest mark =
      { r with
        frames := { opening, branch := .dead, location := mark } :: r.frames
        verdicts := r.verdicts ++ [⟨.opening opening, mark, none, conditionText rest⟩] } := by
  simp only [openFrame, hlive]
  rfl

end Run

/-- Where a frame stands between two of its directives: whether what encloses it is live, and whether
a branch of it was selected. -/
def Frame.Stands (frame : Frame) (live taken : Bool) : Prop :=
  frame.elseSeen = false ∧
    match frame.branch with
    | .dead => live = false
    | .awaiting => live = true ∧ taken = false
    | .active | .done => live = true ∧ taken = true

namespace Run

variable {u : SourceUnit} {r : Run} {frame : Frame} {outer : List Frame} {live taken : Bool}

theorem elseIf_spec (u : SourceUnit) (rest : List Token) (mark : Location)
    (hframes : r.frames = frame :: outer) (h : frame.Stands live taken) :
    let now := if live && !taken then some (Effect.holds u r.table rest mark) else none
    (r.elseIf u frame rest mark).effect =
        r.effect.add ⟨.elseIf, mark, now, conditionText rest⟩ ∧
      (r.elseIf u frame rest mark).pending = r.pending ∧
      ∃ frame', (r.elseIf u frame rest mark).frames = frame' :: outer ∧
        frame'.Stands live (taken || now = some true) ∧
        (frame'.branch = .active ↔ now = some true) := by
  obtain ⟨opening, branch, location, elseSeen⟩ := frame
  obtain ⟨helse, hbranch⟩ := h
  cases branch with
  | active =>
    obtain ⟨rfl, rfl⟩ := hbranch
    refine ⟨?_, ?_, ⟨opening, .done, location, elseSeen⟩, ?_, ⟨helse, rfl, rfl⟩, by simp⟩
    all_goals simp only [elseIf, setBranch, hframes]; rfl
  | awaiting =>
    obtain ⟨rfl, rfl⟩ := hbranch
    obtain ⟨hnotes, htaken⟩ := test_spec u r rest mark
    simp only [elseIf, ← htaken, Bool.not_false, Bool.and_self, if_true]
    generalize Run.test r u rest mark = tested at hnotes ⊢
    obtain ⟨r', now⟩ := tested
    obtain ⟨heffect, hframes', hpending⟩ :=
      select_spec .elseIf mark now rest (hnotes.frames.trans hframes)
    refine ⟨by rw [heffect, hnotes.effect], by rw [hpending, hnotes.pending], _, hframes', ?_, ?_⟩
    · cases now with
      | false => exact ⟨helse, rfl, rfl⟩
      | true => exact ⟨helse, rfl, rfl⟩
    · cases now with
      | false => simp
      | true => simp
  | done =>
    obtain ⟨rfl, rfl⟩ := hbranch
    exact ⟨rfl, rfl, _, hframes, ⟨helse, rfl, rfl⟩, by simp⟩
  | dead =>
    obtain rfl : live = false := hbranch
    exact ⟨rfl, rfl, _, hframes, ⟨helse, rfl⟩, by simp⟩

theorem otherwise_spec (rest : List Token) (mark : Location) (h : frame.Stands live taken) :
    let now := if live then some (!taken) else none
    (r.otherwise frame outer rest mark).effect =
        r.effect.add ⟨.otherwise, mark, now, conditionText rest⟩ ∧
      (r.otherwise frame outer rest mark).pending = r.pending ∧
      ∃ frame', (r.otherwise frame outer rest mark).frames = frame' :: outer ∧
        (frame'.branch = .active ↔ now = some true) := by
  have hnotes := OnlyNotes.warnExtraInside r .otherwise rest
  obtain ⟨opening, branch, location, elseSeen⟩ := frame
  obtain ⟨-, hbranch⟩ := h
  unfold otherwise
  generalize r.warnExtraInside .otherwise rest = r' at hnotes ⊢
  rw [← hnotes.effect, ← hnotes.pending]
  cases branch with
  | active =>
    obtain ⟨rfl, rfl⟩ := hbranch
    exact ⟨rfl, rfl, _, rfl, by simp⟩
  | awaiting =>
    obtain ⟨rfl, rfl⟩ := hbranch
    exact ⟨rfl, rfl, _, rfl, by simp⟩
  | done =>
    obtain ⟨rfl, rfl⟩ := hbranch
    exact ⟨rfl, rfl, _, rfl, by simp⟩
  | dead =>
    obtain rfl : live = false := hbranch
    exact ⟨rfl, rfl, _, rfl, by simp⟩

theorem conditional_opening (opening : Opening) (rest : List Token) (mark : Location) :
    r.conditional u (.opening opening) rest mark = r.openFrame u opening rest mark := by
  unfold conditional
  rfl

/-- What is left of a line's effect when its directive is told. -/
theorem take_conditional {c : Conditional} (line : List Scanned) (h : ConditionalLine c)
    (hline : line.map Scanned.token = h.tokens) :
    ∃ r' : Run, r'.effect = r.effect.text u r.pending ∧ r'.frames = r.frames ∧ r'.pending = [] ∧
      OnlyNotes (r'.conditional u c h.rest h.mark.location) (take u r line) := by
  obtain ⟨r', hbefore, hafter⟩ := take_spec (u := u) (r := r) line
  obtain ⟨heffect, hframes, hpending⟩ := flush_spec u r'
  refine ⟨r'.flush u, ?_, hframes.trans hbefore.frames, hpending, ?_⟩
  · rw [heffect, hbefore.effect, hbefore.pending]
  · rw [takeLine, hline, h.form] at hafter
    simp only [directive, h.keyword] at hafter
    exact hafter

theorem take_opening {opening : Opening} (line : List Scanned)
    (h : ConditionalLine (.opening opening)) (hline : line.map Scanned.token = h.tokens)
    (hoperand : HasOperand opening h.rest) (hlive : r.isLive = live) :
    let e := r.effect.text u r.pending
    let taken :=
      if live then some (Effect.opens u e.table opening h.rest h.mark.location) else none
    (take u r line).effect = e.judge h taken ∧ (take u r line).pending = [] ∧
      ∃ frame, (take u r line).frames = frame :: r.frames ∧ frame.Stands live (taken = some true) ∧
        (frame.branch = .active ↔ taken = some true) := by
  obtain ⟨r', heffect, hframes, hpending, hnotes⟩ := take_conditional (u := u) (r := r) line h hline
  have hlive' : r'.isLive = live := by rw [isLive, hframes, ← hlive, isLive]
  rw [hnotes.effect, hnotes.frames, hnotes.pending, ← heffect, ← hframes]
  rw [conditional_opening]
  cases live with
  | true =>
    obtain ⟨heffect', hframes', hpending'⟩ :=
      openFrame_live (u := u) h.mark.location hlive' hoperand
    refine ⟨heffect', hpending'.trans hpending, _, hframes', ?_, ?_⟩
    · have htable : r'.effect.table = r'.table := rfl
      rw [htable]
      cases Effect.opens u r'.table opening h.rest h.mark.location with
      | false => exact ⟨rfl, rfl, rfl⟩
      | true => exact ⟨rfl, rfl, rfl⟩
    · have htable : r'.effect.table = r'.table := rfl
      rw [htable]
      cases Effect.opens u r'.table opening h.rest h.mark.location with
      | false => simp
      | true => simp
  | false =>
    rw [openFrame_dead u opening h.rest h.mark.location hlive']
    exact ⟨rfl, hpending, _, rfl, ⟨rfl, rfl⟩, by simp⟩

theorem take_closing (line : List Scanned) (h : ConditionalLine .closing)
    (hline : line.map Scanned.token = h.tokens) (hframes : r.frames = frame :: outer) :
    (take u r line).effect = r.effect.text u r.pending ∧ (take u r line).frames = outer ∧
      (take u r line).pending = [] := by
  obtain ⟨r', heffect, hframes', hpending, hnotes⟩ := take_conditional (u := u) (r := r) line h hline
  rw [hframes] at hframes'
  have hextra := OnlyNotes.warnExtraInside r' .closing h.rest
  rw [hnotes.effect, hnotes.frames, hnotes.pending, ← heffect, ← hextra.effect, ← hpending,
    ← hextra.pending]
  unfold conditional
  rw [hframes']
  exact ⟨rfl, rfl, rfl⟩

theorem take_elseIf (line : List Scanned) (h : ConditionalLine .elseIf)
    (hline : line.map Scanned.token = h.tokens) (hframes : r.frames = frame :: outer)
    (hstands : frame.Stands live taken) :
    let e := r.effect.text u r.pending
    let now :=
      if live && !taken then some (Effect.holds u e.table h.rest h.mark.location) else none
    (take u r line).effect = e.judge h now ∧ (take u r line).pending = [] ∧
      ∃ frame', (take u r line).frames = frame' :: outer ∧
        frame'.Stands live (taken || now = some true) ∧
        (frame'.branch = .active ↔ now = some true) := by
  obtain ⟨r', heffect, hframes', hpending, hnotes⟩ := take_conditional (u := u) (r := r) line h hline
  rw [hframes] at hframes'
  rw [hnotes.effect, hnotes.frames, hnotes.pending, ← heffect, ← hpending]
  unfold conditional
  rw [hframes']
  simp only [hstands.1]
  exact elseIf_spec u h.rest h.mark.location hframes' hstands

theorem take_otherwise (line : List Scanned) (h : ConditionalLine .otherwise)
    (hline : line.map Scanned.token = h.tokens) (hframes : r.frames = frame :: outer)
    (hstands : frame.Stands live taken) :
    let now := if live then some (!taken) else none
    (take u r line).effect = (r.effect.text u r.pending).judge h now ∧
      (take u r line).pending = [] ∧
      ∃ frame', (take u r line).frames = frame' :: outer ∧
        (frame'.branch = .active ↔ now = some true) := by
  obtain ⟨r', heffect, hframes', hpending, hnotes⟩ := take_conditional (u := u) (r := r) line h hline
  rw [hframes] at hframes'
  rw [hnotes.effect, hnotes.frames, hnotes.pending, ← heffect, ← hpending]
  unfold conditional
  rw [hframes']
  simp only [hstands.1]
  exact otherwise_spec h.rest h.mark.location hstands

end Run

end CPreprocessor
