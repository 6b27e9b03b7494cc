import CPreprocessor.Directive.Run

/-!
# What a run does not look at

A run enters verdicts and puts tokens out, but it never looks at those it has. So it does the same
whatever was there before, and whatever becomes of the comments that it puts out
(`Run.takeLines_recast`).
-/

namespace CPreprocessor

/-- A source whose comments are kept, or are not. -/
def SourceUnit.keeping (u : SourceUnit) (keepComments : Bool) : SourceUnit :=
  { u with setup := { u.setup with keepComments } }

namespace Run

/-- A run with its verdicts and its output exchanged. -/
abbrev recast (r : Run) (judged : List Verdict → List Verdict) (printed : List Token → List Token) :
    Run :=
  { r with verdicts := judged r.verdicts, output := printed r.output }

/-- Whether an exchange of verdicts and output goes along with what is added to them. -/
structure Recasts (u : SourceUnit) (keep : Bool) (judged : List Verdict → List Verdict)
    (printed : List Token → List Token) : Prop where
  judge : ∀ (verdicts : List Verdict) (verdict : Verdict),
    judged (verdicts ++ [verdict]) = judged verdicts ++ [verdict]
  emit : ∀ output tokens : List Token,
    printed (output ++ tokens.map (outputToken u.setup.keepComments)) =
      printed output ++ tokens.map (outputToken keep)

variable {u : SourceUnit} {keep : Bool} {judged : List Verdict → List Verdict}
  {printed : List Token → List Token} {r : Run} {rest line : List Token} {mark : Location}

section

@[simp] theorem expander_keeping (table : Table) :
    (u.keeping keep).expander table = u.expander table := rfl

@[simp] theorem listing_keeping : (u.keeping keep).listing = u.listing := rfl

@[simp] theorem source_keeping : (u.keeping keep).source = u.source := rfl

@[simp] theorem quote?_keeping : (u.keeping keep).quote? = u.quote? := rfl

@[simp] theorem test_keeping (r : Run) : r.test (u.keeping keep) = r.test u := rfl

@[simp] theorem messageText_keeping : messageText (u.keeping keep) = messageText u := rfl

@[simp] theorem inMessage_keeping : inMessage (u.keeping keep) = inMessage u := rfl

end

/-! ## Steps that neither judge nor put anything out -/

theorem isLive_recast {live : Bool} (h : r.isLive = live) :
    (r.recast judged printed).isLive = live := h

theorem foldl_recast {α : Type} {step step' : Run → α → Run}
    (h : ∀ r a, step' (r.recast judged printed) a = (step r a).recast judged printed) (as : List α)
    (r : Run) :
    as.foldl step' (r.recast judged printed) = (as.foldl step r).recast judged printed := by
  induction as generalizing r with
  | nil => rfl
  | cons a as ih => rw [List.foldl_cons, List.foldl_cons, h, ih]

theorem warnExtra_recast (directive : String) (extra : List Token) :
    (r.recast judged printed).warnExtra directive extra =
      (r.warnExtra directive extra).recast judged printed := by
  cases extra with
  | nil => rfl
  | cons t ts => rfl

theorem warnExtraInside_recast (directive : Conditional) :
    (r.recast judged printed).warnExtraInside directive rest =
      (r.warnExtraInside directive rest).recast judged printed := by
  simp only [warnExtraInside, warnExtra_recast]
  split
  · rfl
  · rfl

theorem setBranch_recast (branch : Branch) :
    (r.recast judged printed).setBranch branch = (r.setBranch branch).recast judged printed := by
  simp only [setBranch]
  split
  · rfl
  · rfl

theorem define_recast :
    (r.recast judged printed).define rest mark = (r.define rest mark).recast judged printed := by
  simp only [define]
  cases Definition.parse rest mark false with
  | error fault => rfl
  | ok d =>
    simp only
    cases (r.table.lookup d.name).any Definition.builtin with
    | true => rfl
    | false =>
      cases r.table.conflict? d with
      | none => rfl
      | some conflict => rfl

theorem undefine_recast :
    (r.recast judged printed).undefine (u.keeping keep) rest mark =
      (r.undefine u rest mark).recast judged printed := by
  simp only [undefine, warnExtra_recast]
  cases macroName "undef" rest mark with
  | error fault => rfl
  | ok found =>
    simp only
    cases ((r.warnExtra "undef" found.2).table.lookup found.1.text).any Definition.builtin with
    | true => rfl
    | false => rfl

theorem test_recast (r : Run) :
    (r.recast judged printed).test (u.keeping keep) rest mark =
      ((r.test u rest mark).1.recast judged printed, (r.test u rest mark).2) := by
  have hwarnings : ∀ undefined : List Token,
      (if u.setup.warnUndefined then
        undefined.foldl (fun r t =>
          r.warn ("'" ++ t.text ++ "' is not defined, evaluates to 0") t.location)
          (r.recast judged printed)
      else r.recast judged printed) =
        (if u.setup.warnUndefined then
          undefined.foldl (fun r t =>
            r.warn ("'" ++ t.text ++ "' is not defined, evaluates to 0") t.location) r
        else r).recast judged printed := by
    intro undefined
    cases u.setup.warnUndefined with
    | true => exact foldl_recast (fun r t => rfl) undefined r
    | false => rfl
  rw [test_keeping]
  simp only [test, hwarnings]
  cases (u.evaluate r.table rest mark).1 with
  | ok value => rfl
  | error report => rfl

theorem noteFaults_recast (line : List Scanned) :
    (r.recast judged printed).noteFaults (u.keeping keep) line =
      (r.noteFaults u line).recast judged printed := by
  cases hlive : r.isLive with
  | true =>
    simp only [noteFaults, isLive_recast hlive, hlive, if_true, source_keeping, inMessage_keeping]
    exact foldl_recast (fun r report => rfl) _ r
  | false => simp only [noteFaults, isLive_recast hlive, hlive, Bool.false_eq_true, if_false]

theorem checkJournal_recast :
    (r.recast judged printed).checkJournal = r.checkJournal.recast judged printed := by
  simp only [checkJournal]
  split
  · rfl
  · rfl

/-! ## Text -/

section
variable (h : Recasts u keep judged printed)
include h

theorem emit_recast (tokens : List Token) :
    (r.recast judged printed).emit (u.keeping keep) tokens =
      (r.emit u tokens).recast judged printed := by
  simp only [emit, recast, h.emit]
  rfl

theorem expandLine_recast (r : Run) (line : List Token) :
    expandLine (u.keeping keep) (r.recast judged printed) line =
      (expandLine u r line).recast judged printed := by
  simp only [expandLine, expander_keeping]
  split
  · exact emit_recast h _
  · rfl

theorem flush_recast (r : Run) :
    (r.recast judged printed).flush (u.keeping keep) = (r.flush u).recast judged printed := by
  simp only [flush, expander_keeping]
  cases r.pending.isEmpty with
  | true => rfl
  | false =>
    cases (u.expander r.table).expand r.pending.flatten with
    | ok expansion => exact emit_recast (r := { r with pending := [] }) h expansion.tokens
    | error error => exact foldl_recast (expandLine_recast h) _ { r with pending := [] }

/-! ## Directives -/

theorem judge_recast (directive : Conditional) (taken : Option Bool) :
    (r.recast judged printed).judge directive mark taken rest =
      (r.judge directive mark taken rest).recast judged printed := by
  simp only [judge, recast, h.judge]

theorem select_recast (directive : Conditional) (taken : Bool) (r : Run) :
    (r.recast judged printed).select directive mark taken rest =
      (r.select directive mark taken rest).recast judged printed := by
  cases taken with
  | true =>
    simp only [select, setBranch_recast, if_true]
    exact judge_recast h ..
  | false => exact judge_recast h ..

theorem openFrame_recast (opening : Opening) :
    (r.recast judged printed).openFrame (u.keeping keep) opening rest mark =
      (r.openFrame u opening rest mark).recast judged printed := by
  cases hlive : r.isLive with
  | false =>
    simp only [openFrame, isLive_recast hlive, hlive, Bool.false_eq_true, if_false]
    exact judge_recast (r := { r with frames := ⟨opening, .dead, mark, false⟩ :: r.frames }) h ..
  | true =>
    simp only [openFrame, isLive_recast hlive, hlive, if_true, quote?_keeping]
    generalize hr : ({ r with frames := ⟨opening, .awaiting, mark, false⟩ :: r.frames } : Run) = r'
    have hrecast : ({ r with
        frames := ⟨opening, .awaiting, mark, false⟩ :: r.frames
        verdicts := judged r.verdicts
        output := printed r.output } : Run) = r'.recast judged printed := by rw [← hr]
    rw [hrecast]
    cases opening with
    | ifTrue => simp only [test_recast, select_recast h]
    | ifDefined =>
      cases macroName (Opening.ifDefined).name rest mark with
      | error fault => rfl
      | ok found => simp only [warnExtra_recast, select_recast h]
    | ifUndefined =>
      cases macroName (Opening.ifUndefined).name rest mark with
      | error fault => rfl
      | ok found => simp only [warnExtra_recast, select_recast h]

theorem otherwise_recast (frame : Frame) (outer : List Frame) :
    (r.recast judged printed).otherwise frame outer rest mark =
      (r.otherwise frame outer rest mark).recast judged printed := by
  simp only [otherwise, warnExtraInside_recast]
  split
  · rw [← judge_recast h]
  · rw [← judge_recast h]
  · rw [← judge_recast h]
  · rw [← judge_recast h]

theorem elseIf_recast (frame : Frame) :
    (r.recast judged printed).elseIf (u.keeping keep) frame rest mark =
      (r.elseIf u frame rest mark).recast judged printed := by
  simp only [elseIf, test_recast, setBranch_recast, select_recast h, judge_recast h]
  split
  · rfl
  · rfl
  · rfl
  · rfl

theorem conditional_recast (directive : Conditional) :
    (r.recast judged printed).conditional (u.keeping keep) directive rest mark =
      (r.conditional u directive rest mark).recast judged printed := by
  simp only [conditional, openFrame_recast h, otherwise_recast h, elseIf_recast h,
    warnExtraInside_recast]
  split
  · rfl
  · rfl
  · rfl
  · rfl
  · rfl
  · split
    · rfl
    · rfl
  · split
    · rfl
    · rfl

theorem directive_recast (mark name : Token) :
    (r.recast judged printed).directive (u.keeping keep) mark name rest =
      (r.directive u mark name rest).recast judged printed := by
  simp only [directive, conditional_recast h, define_recast, undefine_recast, messageText_keeping]
  cases hlive : r.isLive with
  | true =>
    simp only [isLive_recast hlive, if_true]
    cases Keyword.ofText? name.text with
    | none => rfl
    | some keyword =>
      cases keyword with
      | _ => rfl
  | false =>
    simp only [isLive_recast hlive, Bool.false_eq_true, if_false]
    cases Keyword.ofText? name.text with
    | none => rfl
    | some keyword =>
      cases keyword with
      | _ => rfl

/-! ## Lines -/

theorem takeLine_recast (line : List Token) :
    (r.recast judged printed).takeLine (u.keeping keep) line =
      (r.takeLine u line).recast judged printed := by
  simp only [takeLine, flush_recast h, directive_recast h]
  cases LineForm.of line with
  | text =>
    cases hlive : r.isLive with
    | true => simp only [isLive_recast hlive, if_true]
    | false => simp only [isLive_recast hlive, Bool.false_eq_true, if_false]
  | nothing => rfl
  | invalid mark name =>
    cases hlive : (r.flush u).isLive with
    | true =>
      simp only [isLive_recast hlive, if_true]
      rfl
    | false => simp only [isLive_recast hlive, Bool.false_eq_true, if_false]
  | directive mark name rest => rfl

/-- A run does not look at its verdicts and its output, nor at whether comments are kept. -/
theorem takeLines_recast (lines : List (List Scanned)) (r : Run) :
    takeLines (u.keeping keep) (r.recast judged printed) lines =
      (takeLines u r lines).recast judged printed := by
  induction lines generalizing r with
  | nil => rfl
  | cons line lines ih =>
    simp only [takeLines, noteFaults_recast, takeLine_recast h, checkJournal_recast, ih]
    split
    · rfl
    · rfl

theorem finish_recast (r : Run) :
    (r.recast judged printed).finish (u.keeping keep) = (r.finish u).recast judged printed := by
  simp only [finish, flush_recast h]
  split
  · rfl
  split
  · rfl
  · rfl

end

/-! ## Earlier verdicts -/

/-- A run with other verdicts before its own. -/
abbrev after (r : Run) (verdicts : List Verdict) : Run :=
  { r with verdicts := verdicts ++ r.verdicts }

theorem Recasts.after (u : SourceUnit) (verdicts : List Verdict) :
    Recasts u u.setup.keepComments (verdicts ++ ·) id where
  judge _ _ := (List.append_assoc ..).symm
  emit _ _ := rfl

theorem takeLines_after {vs : List Verdict} (u : SourceUnit) (lines : List (List Scanned))
    (r : Run) : takeLines u (r.after vs) lines = (takeLines u r lines).after vs :=
  takeLines_recast (.after u vs) lines r

theorem finish_after {vs : List Verdict} (u : SourceUnit) (r : Run) :
    (r.after vs).finish u = (r.finish u).after vs :=
  finish_recast (.after u vs) r

end Run

end CPreprocessor
