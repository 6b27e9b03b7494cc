import CPreprocessor.Proofs.Directive.Agreement

/-!
# Lines that are not processed

In text that is not live, properly nested lines leave a run as it is but for the verdicts on them,
none of which decides anything (`Block.skips`).
-/

namespace CPreprocessor

variable {P : Location → Prop} {u : SourceUnit} {r : Run} {frame : Frame} {outer : List Frame}

namespace Run

/-- Whether a run goes on in text that is not live, with no text left to wait. -/
structure Dormant (r : Run) : Prop where
  dead : r.isLive = false
  pending : r.pending = []
  notFull : r.journal.isFull = false
  notAborted : r.aborted = false

/-- A run with other frames and more verdicts. -/
def pass (r : Run) (frames : List Frame) (verdicts : List Verdict) : Run :=
  { r with frames, verdicts := r.verdicts ++ verdicts }

theorem pass_pass (frames frames' : List Frame) (vs ws : List Verdict) :
    (r.pass frames vs).pass frames' ws = r.pass frames' (vs ++ ws) := by
  simp only [pass, List.append_assoc]

theorem pass_nil : r.pass r.frames [] = r := by
  simp only [pass, List.append_nil]

theorem Dormant.pass (h : r.Dormant) {frames : List Frame}
    (hdead : CPreprocessor.isLive frames = false) (vs : List Verdict) : (r.pass frames vs).Dormant :=
  ⟨hdead, h.pending, h.notFull, h.notAborted⟩

theorem Dormant.noteFaults (h : r.Dormant) (line : List Scanned) : r.noteFaults u line = r := by
  rw [Run.noteFaults, h.dead]
  rfl

theorem flush_of_pending (h : r.pending = []) : r.flush u = r := by
  obtain ⟨table, frames, verdicts, output, pending, journal, aborted⟩ := r
  obtain rfl : pending = [] := h
  rfl

theorem Dormant.checkJournal (h : r.Dormant) : r.checkJournal = r := by
  rw [Run.checkJournal, h.notFull]
  rfl

/-- A line is taken by its form alone. -/
theorem Dormant.takeLines_cons (h : r.Dormant) (line : List Scanned) (more : List (List Scanned)) :
    takeLines u r (line :: more) =
      takeLines u (r.takeLine u (line.map Scanned.token)).checkJournal more := by
  rw [takeLines, h.noteFaults]
  simp only [h.notAborted, Bool.false_eq_true, if_false]

/-- Whether lines move a run from its frames to others and add verdicts that decide nothing, at
places with a property. -/
def Skips (P : Location → Prop) (u : SourceUnit) (r : Run) (lines : List (List Scanned))
    (frames : List Frame) : Prop :=
  ∃ vs : List Verdict, (∀ v ∈ vs, v.taken = none ∧ P v.location) ∧
    ∀ more, takeLines u r (lines ++ more) = takeLines u (r.pass frames vs) more

theorem Skips.append {lines lines' : List (List Scanned)} {frames frames' : List Frame}
    (h : Skips P u r lines frames) (h' : ∀ vs, Skips P u (r.pass frames vs) lines' frames') :
    Skips P u r (lines ++ lines') frames' := by
  obtain ⟨vs, hvs, heq⟩ := h
  obtain ⟨ws, hws, heq'⟩ := h' vs
  refine ⟨vs ++ ws, List.forall_mem_append.mpr ⟨hvs, hws⟩, fun more => ?_⟩
  rw [List.append_assoc, heq, heq', pass_pass]

/-- One line that is skipped. -/
theorem Skips.line (h : r.Dormant) {line : List Scanned} {frames : List Frame} (vs : List Verdict)
    (hvs : ∀ v ∈ vs, v.taken = none ∧ P v.location)
    (hline : r.takeLine u (line.map Scanned.token) = r.pass frames vs) :
    Skips P u r [line] frames := by
  refine ⟨vs, hvs, fun more => ?_⟩
  rw [List.singleton_append, h.takeLines_cons, hline, Run.checkJournal, if_neg]
  rw [pass, h.notFull]
  exact Bool.false_ne_true

/-! ## Each kind of line -/

theorem Dormant.takeLines_texts (h : r.Dormant) {lines : List (List Scanned)}
    (hform : ∀ line ∈ lines, LineForm.of (line.map Scanned.token) = .text)
    (more : List (List Scanned)) : takeLines u r (lines ++ more) = takeLines u r more := by
  induction lines with
  | nil => rfl
  | cons line lines ih =>
    obtain ⟨hline, hlines⟩ := List.forall_mem_cons.mp hform
    have htake : r.takeLine u (line.map Scanned.token) = r := by
      rw [Run.takeLine, hline]
      simp only
      rw [h.dead]
      rfl
    rw [List.cons_append, h.takeLines_cons, htake, h.checkJournal, ih hlines]

theorem Skips.texts (h : r.Dormant) {lines : List (List Scanned)}
    (hform : ∀ line ∈ lines, LineForm.of (line.map Scanned.token) = .text) :
    Skips P u r lines r.frames := by
  refine ⟨[], nofun, fun more => ?_⟩
  rw [h.takeLines_texts hform, pass_nil]

theorem Skips.plain (h : r.Dormant) {line : List Scanned} (plain : PlainLine)
    (hline : line.map Scanned.token = plain.val) : Skips P u r [line] r.frames := by
  refine .line h [] nofun ?_
  have hform := plain.property
  rw [pass_nil, takeLine, hline, flush_of_pending h.pending]
  generalize LineForm.of plain.val = form at hform
  cases form with
  | text => exact absurd hform not_false
  | nothing => rfl
  | invalid mark name =>
    simp only
    rw [h.dead]
    rfl
  | directive mark name rest =>
    simp only [directive, h.dead]
    cases hkeyword : Keyword.ofText? name.text with
    | none => rfl
    | some keyword =>
      cases keyword with
      | conditional c => exact absurd hkeyword (hform c)
      | _ => rfl

variable {line : List Scanned} {c : Conditional}

/-- A conditional directive, with no text left to wait. -/
theorem Dormant.takeLine_eq (h : r.Dormant) (directive : ConditionalLine c)
    (hline : line.map Scanned.token = directive.tokens) :
    r.takeLine u (line.map Scanned.token) =
      r.conditional u c directive.rest directive.mark.location := by
  rw [Run.takeLine, hline, directive.form]
  simp only [flush_of_pending h.pending, Run.directive, directive.keyword]

/-- A conditional directive that adds one verdict. -/
theorem Skips.judge (h : r.Dormant) (directive : ConditionalLine c) {frames : List Frame}
    (hline : line.map Scanned.token = directive.tokens)
    (hstand : StandAt P (line.map Scanned.token))
    (hconditional : r.conditional u c directive.rest directive.mark.location =
      { r with frames }.judge c directive.mark.location none directive.rest) :
    Skips P u r [line] frames := by
  have hmark : P directive.mark.location :=
    (LineForm.standAt_of directive.form (hline ▸ hstand)).1
  refine .line h [⟨c, directive.mark.location, none, conditionText directive.rest⟩]
    (List.forall_mem_singleton.mpr ⟨rfl, hmark⟩) ?_
  rw [h.takeLine_eq directive hline, hconditional]
  rfl

theorem Skips.opening (h : r.Dormant) {opening : Opening}
    (directive : ConditionalLine (.opening opening))
    (hline : line.map Scanned.token = directive.tokens)
    (hstand : StandAt P (line.map Scanned.token)) :
    Skips P u r [line]
      ({ opening, branch := .dead, location := directive.mark.location } :: r.frames) := by
  refine .judge h directive hline hstand ?_
  rw [conditional_opening]
  exact openFrame_dead u opening directive.rest directive.mark.location h.dead

/-- Whether the innermost frame was opened in text that is not live, and had no `#else` yet. -/
structure InDeadFrame (r : Run) (frame : Frame) (outer : List Frame) : Prop where
  frames : r.frames = frame :: outer
  branch : frame.branch = .dead
  elseSeen : frame.elseSeen = false
  outer : CPreprocessor.isLive outer = false

theorem Skips.elseIf (h : r.Dormant) (hframe : r.InDeadFrame frame outer)
    (directive : ConditionalLine .elseIf) (hline : line.map Scanned.token = directive.tokens)
    (hstand : StandAt P (line.map Scanned.token)) : Skips P u r [line] r.frames := by
  refine .judge h directive hline hstand ?_
  unfold conditional
  rw [hframe.frames]
  simp only [hframe.elseSeen, Run.elseIf, hframe.branch]
  rw [← hframe.frames]
  rfl

theorem Skips.otherwise (h : r.Dormant) (hframe : r.InDeadFrame frame outer)
    (directive : ConditionalLine .otherwise) (hline : line.map Scanned.token = directive.tokens)
    (hstand : StandAt P (line.map Scanned.token)) :
    Skips P u r [line] ({ frame with branch := .dead, elseSeen := true } :: outer) := by
  refine .judge h directive hline hstand ?_
  have hextra : r.warnExtraInside .otherwise directive.rest = r := by
    rw [warnExtraInside, hframe.frames, List.tail_cons, hframe.outer]
    rfl
  unfold conditional
  rw [hframe.frames]
  simp only [hframe.elseSeen, Run.otherwise, hframe.branch, hextra]
  rfl

theorem Skips.closing (h : r.Dormant) (hframes : r.frames = frame :: outer)
    (houter : CPreprocessor.isLive outer = false) (directive : ConditionalLine .closing)
    (hline : line.map Scanned.token = directive.tokens) : Skips P u r [line] outer := by
  refine .line h [] nofun ?_
  have hextra : r.warnExtraInside .closing directive.rest = r := by
    rw [warnExtraInside, hframes, List.tail_cons, houter]
    rfl
  rw [h.takeLine_eq directive hline]
  unfold conditional
  rw [hframes]
  simp only [hextra, pass, List.append_nil]

end Run

/-! ## Blocks -/

open Run

variable {Opens : Opening → List Token → Prop}

theorem form_textTokens {texts : List TextLine} {lines : List (List Scanned)}
    (h : lines.map (·.map Scanned.token) = textTokens texts) :
    ∀ line ∈ lines, LineForm.of (line.map Scanned.token) = .text := by
  intro line hline
  have hmem : line.map Scanned.token ∈ textTokens texts := h ▸ List.mem_map_of_mem hline
  obtain ⟨text, -, heq⟩ := List.mem_map.mp hmem
  exact heq ▸ text.property

mutual

theorem Block.skips (b : Block Opens) (u : SourceUnit) (r : Run) (lines : List (List Scanned))
    (hlines : lines.map (·.map Scanned.token) = b.lines)
    (hstand : ∀ line ∈ lines, StandAt P (line.map Scanned.token)) (h : r.Dormant) :
    Skips P u r lines r.frames := by
  cases b with
  | last texts => exact .texts h (form_textTokens hlines)
  | plain texts line after =>
    obtain ⟨before, others, rfl, htexts, hothers⟩ := List.map_eq_append_iff.mp hlines
    obtain ⟨scanned, rest, rfl, hline, hrest⟩ := List.map_eq_cons_iff.mp hothers
    obtain ⟨-, hstand⟩ := List.forall_mem_append.mp hstand
    obtain ⟨-, hstand⟩ := List.forall_mem_cons.mp hstand
    refine (Skips.texts h (form_textTokens htexts)).append fun vs => ?_
    refine (Skips.plain (h.pass h.dead vs) line hline).append fun ws => ?_
    rw [pass_pass]
    exact after.skips u _ rest hrest hstand (h.pass h.dead _)
  | group texts opening line opens body branches after =>
    obtain ⟨before, others, rfl, htexts, hothers⟩ := List.map_eq_append_iff.mp hlines
    obtain ⟨scanned, others, rfl, hline, hothers⟩ := List.map_eq_cons_iff.mp hothers
    obtain ⟨inner, others, rfl, hinner, hothers⟩ := List.map_eq_append_iff.mp hothers
    obtain ⟨sides, rest, rfl, hsides, hrest⟩ := List.map_eq_append_iff.mp hothers
    obtain ⟨-, hstand⟩ := List.forall_mem_append.mp hstand
    obtain ⟨hmark, hstand⟩ := List.forall_mem_cons.mp hstand
    obtain ⟨hbody, hstand⟩ := List.forall_mem_append.mp hstand
    obtain ⟨hbranches, hafter⟩ := List.forall_mem_append.mp hstand
    have hdead : isLive (⟨opening, .dead, line.mark.location, false⟩ :: r.frames) = false := rfl
    generalize hframes : (⟨opening, .dead, line.mark.location, false⟩ :: r.frames : List Frame) =
      frames at hdead
    have hskipOpening : ∀ vs, Skips P u (r.pass r.frames vs) [scanned] frames := fun vs =>
      hframes ▸ Skips.opening (h.pass h.dead vs) line hline hmark
    have hskipBody : ∀ vs, Skips P u (r.pass frames vs) inner frames := fun vs =>
      body.skips u _ inner hinner hbody (h.pass hdead vs)
    have hskipBranches : ∀ vs, Skips P u (r.pass frames vs) sides r.frames := fun vs =>
      branches.skips u _ sides _ _ hsides hbranches (h.pass hdead vs) ⟨hframes.symm, rfl, rfl, h.dead⟩
    have hskipAfter : ∀ vs, Skips P u (r.pass r.frames vs) rest r.frames := fun vs =>
      after.skips u _ rest hrest hafter (h.pass h.dead vs)
    refine (Skips.texts h (form_textTokens htexts)).append fun vs => ?_
    refine (hskipOpening vs).append fun ws => ?_
    rw [pass_pass]
    refine (hskipBody _).append fun xs => ?_
    rw [pass_pass]
    refine (hskipBranches _).append fun ys => ?_
    rw [pass_pass]
    exact hskipAfter _

theorem Branches.skips (b : Branches Opens) (u : SourceUnit) (r : Run)
    (lines : List (List Scanned)) (frame : Frame) (outer : List Frame)
    (hlines : lines.map (·.map Scanned.token) = b.lines)
    (hstand : ∀ line ∈ lines, StandAt P (line.map Scanned.token)) (h : r.Dormant)
    (hframe : r.InDeadFrame frame outer) : Skips P u r lines outer := by
  cases b with
  | closed line =>
    obtain ⟨scanned, rest, rfl, hline, hrest⟩ := List.map_eq_cons_iff.mp hlines
    rw [List.map_eq_nil_iff] at hrest
    subst hrest
    exact .closing h hframe.frames hframe.outer line hline
  | elseIf line body others =>
    obtain ⟨scanned, rest, rfl, hline, hrest⟩ := List.map_eq_cons_iff.mp hlines
    obtain ⟨inner, sides, rfl, hinner, hsides⟩ := List.map_eq_append_iff.mp hrest
    obtain ⟨hmark, hstand⟩ := List.forall_mem_cons.mp hstand
    obtain ⟨hbody, hothers⟩ := List.forall_mem_append.mp hstand
    refine (Skips.elseIf h hframe line hline hmark).append fun vs => ?_
    refine (body.skips u _ inner hinner hbody (h.pass h.dead vs)).append fun ws => ?_
    exact others.skips u _ sides _ _ hsides hothers ((h.pass h.dead _).pass h.dead _)
      ⟨hframe.frames, hframe.branch, hframe.elseSeen, hframe.outer⟩
  | otherwise line body closing =>
    obtain ⟨scanned, rest, rfl, hline, hrest⟩ := List.map_eq_cons_iff.mp hlines
    obtain ⟨inner, last, rfl, hinner, hlast⟩ := List.map_eq_append_iff.mp hrest
    obtain ⟨last, rest, rfl, hclosing, hrest⟩ := List.map_eq_cons_iff.mp hlast
    rw [List.map_eq_nil_iff] at hrest
    subst hrest
    obtain ⟨hmark, hstand⟩ := List.forall_mem_cons.mp hstand
    obtain ⟨hbody, -⟩ := List.forall_mem_append.mp hstand
    refine (Skips.otherwise h hframe line hline hmark).append fun vs => ?_
    refine (body.skips u _ inner hinner hbody (h.pass rfl vs)).append fun ws => ?_
    exact .closing ((h.pass rfl vs).pass rfl ws) rfl hframe.outer closing hclosing

end

end CPreprocessor
