import CPreprocessor.Proofs.Directive.Selection

/-!
# The stack of frames

Of a line only its conditional directive bears on the open frames, and of that little beside its name:
`FrameStep` is all that a line can do to them. So what a frame says of itself is right: it is dead
exactly if it was opened in text that is not live, no more than one of its branches becomes live, and
the number of open frames is counted by the names of the directives (`Run.frames_of_lines`), however
malformed the lines are.
-/

namespace CPreprocessor

/-- The conditional directive of a line, if it has one. -/
def LineForm.conditional? : LineForm → Option Conditional
  | .directive _ name _ =>
    match Keyword.ofText? name.text with
    | some (.conditional c) => some c
    | _ => none
  | _ => none

/-- How many frames are open after a line with this directive. -/
def depthAfter (depth : Nat) : Option Conditional → Nat
  | some (.opening _) => depth + 1
  | some .closing => depth - 1
  | _ => depth

namespace Branch

/-- The branch of a frame after its opening directive. -/
def first (live taken : Bool) : Branch :=
  if live then if taken then active else awaiting else dead

/-- The branch of a frame after an `#elif`. -/
def afterElseIf (taken : Bool) : Branch → Branch
  | awaiting => if taken then active else awaiting
  | active | done => done
  | dead => dead

/-- The branch of a frame after its `#else`. -/
def afterElse : Branch → Branch
  | awaiting => active
  | active | done => done
  | dead => dead

end Branch

/-- What a line with the directive `c`, if any, can do to the open frames. What it does beside depends
on its condition at most. -/
inductive FrameStep : (c : Option Conditional) → List Frame → List Frame → Prop where
  | other {frames : List Frame} : FrameStep none frames frames
  | opening {frames : List Frame} (opening : Opening) (location : Location) (taken : Bool) :
    FrameStep (some (.opening opening)) frames
      ({ opening, branch := .first (isLive frames) taken, location } :: frames)
  | closing {frame : Frame} {outer : List Frame} : FrameStep (some .closing) (frame :: outer) outer
  | elseIf {frame : Frame} {outer : List Frame} (taken : Bool) (first : frame.elseSeen = false) :
    FrameStep (some .elseIf) (frame :: outer)
      ({ frame with branch := frame.branch.afterElseIf taken } :: outer)
  | otherwise {frame : Frame} {outer : List Frame} (first : frame.elseSeen = false) :
    FrameStep (some .otherwise) (frame :: outer)
      ({ frame with branch := frame.branch.afterElse, elseSeen := true } :: outer)
  /-- no frame is open -/
  | unmatched {c : Conditional} (inside : ∀ opening, c ≠ .opening opening) : FrameStep (some c) [] []
  /-- the frame has had its `#else` -/
  | refused {c : Conditional} {frame : Frame} {outer : List Frame}
    (inside : c = .elseIf ∨ c = .otherwise) (late : frame.elseSeen = true) :
    FrameStep (some c) (frame :: outer) (frame :: outer)

namespace Run

variable {u : SourceUnit} {r : Run} {rest : List Token} {mark : Location}

theorem frames_select {frame : Frame} {outer : List Frame} (directive : Conditional) (taken : Bool)
    (h : r.frames = frame :: outer) :
    (r.select directive mark taken rest).frames =
      { frame with branch := if taken then .active else frame.branch } :: outer :=
  (select_spec directive mark taken rest h).2.1

theorem frameStep_openFrame (u : SourceUnit) (r : Run) (opening : Opening) (rest : List Token)
    (mark : Location) :
    FrameStep (some (.opening opening)) r.frames (r.openFrame u opening rest mark).frames := by
  -- A frame that waits for a branch, if the directive is refused, and one with its branch selected.
  have waiting : ∀ r' : Run, r.isLive = true →
      r'.frames = { opening, branch := .awaiting, location := mark } :: r.frames →
      FrameStep (some (.opening opening)) r.frames r'.frames := by
    intro r' hlive hframes
    have hstep : FrameStep _ r.frames _ := .opening opening mark false
    rw [← isLive, hlive] at hstep
    rw [hframes]
    exact hstep
  have selected : ∀ (r' : Run) (taken : Bool), r.isLive = true →
      r'.frames = { opening, branch := .awaiting, location := mark } :: r.frames →
      FrameStep (some (.opening opening)) r.frames
        (r'.select (.opening opening) mark taken rest).frames := by
    intro r' taken hlive hframes
    have hstep : FrameStep _ r.frames _ := .opening opening mark taken
    rw [← isLive, hlive] at hstep
    rw [frames_select _ _ hframes]
    exact hstep
  simp only [openFrame]
  split
  · rename_i hlive
    split
    · exact selected _ _ hlive (test_spec ..).1.frames
    all_goals
      split
      · exact waiting _ hlive rfl
      · exact selected _ _ hlive (OnlyNotes.warnExtra ..).frames
  · rename_i hdead
    have hstep : FrameStep _ r.frames _ := .opening opening mark false
    rw [← isLive, Bool.eq_false_iff.mpr hdead] at hstep
    exact hstep

theorem frameStep_otherwise {frame : Frame} (first : frame.elseSeen = false) (r : Run)
    (outer : List Frame) (rest : List Token) (mark : Location) :
    FrameStep (some .otherwise) (frame :: outer) (r.otherwise frame outer rest mark).frames := by
  have hstep : FrameStep _ (frame :: outer) _ := .otherwise first
  rw [otherwise]
  cases hbranch : frame.branch with
  | _ =>
    rw [hbranch] at hstep
    exact hstep

theorem frameStep_elseIf {frame : Frame} {outer : List Frame} (first : frame.elseSeen = false)
    (hframes : r.frames = frame :: outer) (u : SourceUnit) (rest : List Token) (mark : Location) :
    FrameStep (some .elseIf) (frame :: outer) (r.elseIf u frame rest mark).frames := by
  have hstep : ∀ taken, FrameStep _ (frame :: outer) _ := fun taken => .elseIf taken first
  simp only [elseIf]
  cases hbranch : frame.branch with
  | awaiting =>
    simp only
    rw [frames_select _ _ ((test_spec ..).1.frames.trans hframes), hbranch]
    rw [hbranch] at hstep
    exact hstep _
  | active =>
    simp only [judge, setBranch, hframes]
    rw [hbranch] at hstep
    exact hstep false
  | done =>
    simp only [judge, hframes]
    have hself : ({ frame with branch := .done } : Frame) = frame := by rw [← hbranch]
    have hkept := hstep false
    rw [hbranch, show Branch.done.afterElseIf false = .done from rfl, hself] at hkept
    exact hkept
  | dead =>
    simp only [judge, hframes]
    have hself : ({ frame with branch := .dead } : Frame) = frame := by rw [← hbranch]
    have hkept := hstep false
    rw [hbranch, show Branch.dead.afterElseIf false = .dead from rfl, hself] at hkept
    exact hkept

theorem frameStep_conditional (u : SourceUnit) (r : Run) (c : Conditional) (rest : List Token)
    (mark : Location) : FrameStep (some c) r.frames (r.conditional u c rest mark).frames := by
  cases c with
  | opening opening =>
    rw [conditional_opening]
    exact frameStep_openFrame u r opening rest mark
  | closing =>
    cases hframes : r.frames with
    | nil =>
      simp only [conditional, hframes, refuse, record]
      exact .unmatched (by rintro opening ⟨⟩)
    | cons frame outer =>
      simp only [conditional, hframes]
      exact .closing
  | elseIf =>
    cases hframes : r.frames with
    | nil =>
      simp only [conditional, hframes, refuse, record]
      exact .unmatched (by rintro opening ⟨⟩)
    | cons frame outer =>
      simp only [conditional, hframes]
      split
      · rename_i hlate
        simp only [refuse, record, hframes]
        exact .refused (.inl rfl) hlate
      · rename_i hfirst
        exact frameStep_elseIf (Bool.eq_false_iff.mpr hfirst) hframes u rest mark
  | otherwise =>
    cases hframes : r.frames with
    | nil =>
      simp only [conditional, hframes, refuse, record]
      exact .unmatched (by rintro opening ⟨⟩)
    | cons frame outer =>
      simp only [conditional, hframes]
      split
      · rename_i hlate
        simp only [refuse, record, hframes]
        exact .refused (.inr rfl) hlate
      · rename_i hfirst
        exact frameStep_otherwise (Bool.eq_false_iff.mpr hfirst) r outer rest mark

theorem frameStep_takeLine (u : SourceUnit) (r : Run) (line : List Token) :
    FrameStep (LineForm.of line).conditional? r.frames (r.takeLine u line).frames := by
  obtain ⟨-, hflush, -⟩ := flush_spec u r
  rw [takeLine]
  cases LineForm.of line with
  | text =>
    simp only
    split
    · exact .other
    · exact .other
  | nothing =>
    simp only [hflush]
    exact .other
  | invalid mark name =>
    simp only
    split
    · simp only [refuse, record, hflush]
      exact .other
    · rw [hflush]
      exact .other
  | directive mark name rest =>
    simp only
    generalize r.flush u = r' at hflush
    rw [← hflush, LineForm.conditional?]
    by_cases hconditional : ∃ c, Keyword.ofText? name.text = some (.conditional c)
    · obtain ⟨c, hc⟩ := hconditional
      simp only [directive, hc]
      exact frameStep_conditional u r' c rest mark.location
    · have hother : ∀ c, Keyword.ofText? name.text ≠ some (.conditional c) :=
        fun c hc => hconditional ⟨c, hc⟩
      rw [(directive_spec u r' mark rest hother).2.1]
      split
      · rename_i c hc
        exact absurd hc (hother c)
      · exact .other

theorem frameStep_take (u : SourceUnit) (r : Run) (line : List Scanned) :
    FrameStep (LineForm.of (line.map Scanned.token)).conditional? r.frames (take u r line).frames := by
  obtain ⟨r', hbefore, hafter⟩ := take_spec (u := u) (r := r) line
  rw [hafter.frames, ← hbefore.frames]
  exact frameStep_takeLine u r' _

end Run

namespace FrameStep

variable {c : Option Conditional} {before after : List Frame}

theorem length (h : FrameStep c before after) : after.length = depthAfter before.length c := by
  cases h with
  | other => rfl
  | opening opening location taken => rfl
  | closing => rfl
  | elseIf taken first => rfl
  | otherwise first => rfl
  | @unmatched c inside =>
    cases c with
    | opening opening => exact absurd rfl (inside opening)
    | _ => rfl
  | refused inside late =>
    obtain rfl | rfl := inside
    · rfl
    · rfl

end FrameStep

/-! ## The history of a frame -/

/-- What a frame has been through since it was opened. -/
structure FrameLog where
  /-- whether it was opened in live text -/
  openedLive : Bool
  /-- how many of its branches became live -/
  entered : Nat
  /-- whether an `#else` was accepted in it -/
  otherwise : Bool := false

/-- The log of a frame after a line that neither opened nor closed it: `c` is the directive of the line,
and an `#elif` or `#else` that is not refused begins a branch. -/
def FrameLog.next (c : Option Conditional) (before after : Frame) (log : FrameLog) : FrameLog :=
  let begins := c.isSome && !before.elseSeen
  { log with
    entered :=
      if after.branch = .active ∧ (begins ∨ before.branch ≠ .active) then log.entered + 1
      else log.entered
    otherwise := log.otherwise || begins && c = some .otherwise }

/-- The logs of the open frames after a line with the directive `c`, if any. -/
def logsAfter (c : Option Conditional) (before after : List Frame) (logs : List FrameLog) :
    List FrameLog :=
  match c with
  | some (.opening _) =>
    { openedLive := isLive before, entered := if isLive after then 1 else 0 } :: logs
  | some .closing => logs.tail
  | c =>
    match before, after, logs with
    | frame :: _, frame' :: _, log :: outer => log.next c frame frame' :: outer
    | _, _, _ => logs

/-- What a frame shows of its history. -/
structure Frame.Logged (frame : Frame) (log : FrameLog) : Prop where
  openedLive : log.openedLive = true ↔ frame.branch ≠ .dead
  entered : log.entered = if frame.branch = .active ∨ frame.branch = .done then 1 else 0
  otherwise : log.otherwise = frame.elseSeen
  decided : frame.elseSeen = true → frame.branch ≠ .awaiting

/-- Open frames, innermost first, of which each shows its history and whether what encloses it is
live. -/
inductive Stacked : List Frame → List FrameLog → Prop where
  | nil : Stacked [] []
  | cons {frame : Frame} {log : FrameLog} {outer : List Frame} {logs : List FrameLog}
    (logged : frame.Logged log) (enclosed : frame.branch = .dead ↔ isLive outer = false)
    (stacked : Stacked outer logs) : Stacked (frame :: outer) (log :: logs)

theorem FrameLog.next_of_not_begins {c : Option Conditional} {frame : Frame}
    (h : c = none ∨ frame.elseSeen = true) (log : FrameLog) : log.next c frame frame = log := by
  have hbegins : (c.isSome && !frame.elseSeen) = false := by
    obtain rfl | h := h
    · rfl
    · rw [h, Bool.not_true, Bool.and_false]
  simp [FrameLog.next, hbegins]

theorem Frame.Logged.opening (outer : List Frame) (opening : Opening) (location : Location)
    (taken : Bool) :
    let frame : Frame := { opening, branch := .first (isLive outer) taken, location }
    frame.Logged
      { openedLive := isLive outer, entered := if isLive (frame :: outer) then 1 else 0 } := by
  cases hlive : isLive outer with
  | false => exact ⟨by simp [Branch.first], by simp [Branch.first, isLive], rfl, by rintro ⟨⟩⟩
  | true =>
    cases taken with
    | false => exact ⟨by simp [Branch.first], by simp [Branch.first, isLive], rfl, by rintro ⟨⟩⟩
    | true => exact ⟨by simp [Branch.first], by simp [Branch.first, isLive], rfl, by rintro ⟨⟩⟩

theorem Frame.Logged.elseIf {frame : Frame} {log : FrameLog} (h : frame.Logged log)
    (first : frame.elseSeen = false) (taken : Bool) :
    let frame' := { frame with branch := frame.branch.afterElseIf taken }
    frame'.Logged (log.next (some .elseIf) frame frame') := by
  obtain ⟨hopened, hentered, hotherwise, -⟩ := h
  cases hbranch : frame.branch with
  | awaiting =>
    rw [hbranch] at hopened hentered
    cases taken with
    | false =>
      exact ⟨by simpa [FrameLog.next, Branch.afterElseIf] using hopened,
        by simpa [FrameLog.next, Branch.afterElseIf] using hentered,
        by simpa [FrameLog.next] using hotherwise, by simp [first]⟩
    | true =>
      exact ⟨by simpa [FrameLog.next, Branch.afterElseIf] using hopened,
        by simpa [FrameLog.next, Branch.afterElseIf, first] using hentered,
        by simpa [FrameLog.next] using hotherwise, by simp [first]⟩
  | _ =>
    rw [hbranch] at hopened hentered
    exact ⟨by simpa [FrameLog.next, Branch.afterElseIf] using hopened,
      by simpa [FrameLog.next, Branch.afterElseIf] using hentered,
      by simpa [FrameLog.next] using hotherwise, by simp [first]⟩

theorem Frame.Logged.afterElse {frame : Frame} {log : FrameLog} (h : frame.Logged log)
    (first : frame.elseSeen = false) :
    let frame' := { frame with branch := frame.branch.afterElse, elseSeen := true }
    frame'.Logged (log.next (some .otherwise) frame frame') := by
  obtain ⟨hopened, hentered, -, -⟩ := h
  cases hbranch : frame.branch with
  | _ =>
    rw [hbranch] at hopened hentered
    exact ⟨by simpa [FrameLog.next, Branch.afterElse] using hopened,
      by simpa [FrameLog.next, Branch.afterElse, first] using hentered,
      by simp [FrameLog.next, first], by simp [Branch.afterElse]⟩

namespace Branch

theorem first_eq_dead (live taken : Bool) : first live taken = dead ↔ live = false := by
  cases live <;> cases taken <;> simp [first]

theorem afterElseIf_eq_dead (taken : Bool) (branch : Branch) :
    branch.afterElseIf taken = dead ↔ branch = dead := by
  cases branch <;> cases taken <;> simp [afterElseIf]

theorem afterElse_eq_dead (branch : Branch) : branch.afterElse = dead ↔ branch = dead := by
  cases branch <;> simp [afterElse]

end Branch

namespace Stacked

variable {c : Option Conditional} {frames before after : List Frame} {logs : List FrameLog}

/-- A line keeps the frames stacked, and their logs in step with them. -/
theorem step (h : Stacked before logs) (hstep : FrameStep c before after) :
    Stacked after (logsAfter c before after logs) := by
  cases hstep with
  | other =>
    cases h with
    | nil => exact .nil
    | cons logged enclosed stacked =>
      rw [logsAfter, FrameLog.next_of_not_begins (.inl rfl)]
      · exact .cons logged enclosed stacked
      all_goals exact nofun
  | opening opening location taken =>
    exact .cons (.opening before opening location taken) (Branch.first_eq_dead ..) h
  | closing =>
    cases h with
    | cons logged enclosed stacked => exact stacked
  | elseIf taken first =>
    cases h with
    | cons logged enclosed stacked =>
      exact .cons (logged.elseIf first taken) ((Branch.afterElseIf_eq_dead ..).trans enclosed) stacked
  | otherwise first =>
    cases h with
    | cons logged enclosed stacked =>
      exact .cons (logged.afterElse first) ((Branch.afterElse_eq_dead _).trans enclosed) stacked
  | @unmatched c inside =>
    cases h with
    | nil =>
      cases c with
      | opening opening => exact absurd rfl (inside opening)
      | _ => exact .nil
  | refused inside late =>
    cases h with
    | cons logged enclosed stacked =>
      obtain rfl | rfl := inside
      all_goals
        rw [logsAfter, FrameLog.next_of_not_begins (.inr late)]
        · exact .cons logged enclosed stacked
        all_goals exact nofun

theorem getLast_not_dead (h : Stacked frames logs) :
    ∀ frame ∈ frames.getLast?, frame.branch ≠ .dead := by
  induction h with
  | nil => exact nofun
  | @cons frame log outer logs logged enclosed stacked ih =>
    cases outer with
    | nil =>
      intro frame' hframe' hdead
      obtain rfl : frame = frame' := by simpa using hframe'
      exact nomatch enclosed.mp hdead
    | cons frame' outer =>
      rw [List.getLast?_cons_cons]
      exact ih

theorem isChain (h : Stacked frames logs) :
    frames.IsChain fun inner outer => inner.branch = .dead ↔ outer.branch ≠ .active := by
  induction h with
  | nil => exact .nil
  | @cons frame log outer logs logged enclosed stacked ih =>
    cases outer with
    | nil => exact .singleton _
    | cons frame' outer => exact .cons_cons (by simpa [isLive] using enclosed) ih

theorem isLive_iff (h : Stacked frames logs) :
    isLive frames = true ↔ ∀ frame ∈ frames, frame.branch = .active := by
  induction h with
  | nil => simp [isLive]
  | @cons frame log outer logs logged enclosed stacked ih =>
    have hhead : isLive (frame :: outer) = true ↔ frame.branch = .active := by simp [isLive]
    rw [hhead, List.forall_mem_cons]
    constructor
    · intro hactive
      refine ⟨hactive, ih.mp (Bool.not_eq_false _ ▸ fun hdead => ?_)⟩
      rw [enclosed.mpr hdead] at hactive
      cases hactive
    · exact And.left

theorem entered (h : Stacked frames logs) :
    List.Forall₂ (fun _ log => log.entered ≤ 1 ∧
      (log.openedLive = true → log.otherwise = true → log.entered = 1)) frames logs := by
  induction h with
  | nil => exact .nil
  | @cons frame log outer logs logged enclosed stacked ih =>
    refine .cons ⟨?_, fun hlive helse => ?_⟩ ih
    · rw [logged.entered]
      split
      · exact Nat.le_refl 1
      · exact Nat.zero_le 1
    · have halive := logged.openedLive.mp hlive
      have hdecided := logged.decided (logged.otherwise ▸ helse)
      rw [logged.entered, if_pos]
      cases hbranch : frame.branch with
      | active => exact .inl rfl
      | done => exact .inr rfl
      | awaiting => exact absurd hbranch hdecided
      | dead => exact absurd hbranch halive

end Stacked

/-! ## Runs that are watched -/

/-- A run with the logs of its open frames. -/
structure Watched where
  run : Run
  logs : List FrameLog := []

/-- Takes a line and enters into the logs what it did to the frames. -/
def Watched.take (u : SourceUnit) (w : Watched) (line : List Scanned) : Watched :=
  let run := Run.take u w.run line
  let c := (LineForm.of (line.map Scanned.token)).conditional?
  { run, logs := logsAfter c w.run.frames run.frames w.logs }

namespace Run

theorem run_watched (u : SourceUnit) (w : Watched) (lines : List (List Scanned)) :
    (lines.foldl (Watched.take u) w).run = lines.foldl (take u) w.run := by
  induction lines generalizing w with
  | nil => rfl
  | cons line lines ih => exact ih (w.take u line)

theorem stacked_watched {w : Watched} (h : Stacked w.run.frames w.logs) (u : SourceUnit)
    (lines : List (List Scanned)) :
    Stacked (lines.foldl (Watched.take u) w).run.frames (lines.foldl (Watched.take u) w).logs := by
  induction lines generalizing w with
  | nil => exact h
  | cons line lines ih => exact ih (w := w.take u line) (h.step (frameStep_take u w.run line))

theorem depth_frames (u : SourceUnit) (r : Run) (lines : List (List Scanned)) :
    (lines.foldl (take u) r).frames.length =
      (lines.map fun line => (LineForm.of (line.map Scanned.token)).conditional?).foldl depthAfter
        r.frames.length := by
  induction lines generalizing r with
  | nil => rfl
  | cons line lines ih =>
    rw [List.foldl_cons, ih, List.map_cons, List.foldl_cons, (frameStep_take u r line).length]

/-- A run that stops leaves the frames of the lines taken till then. -/
theorem exists_frames_takeLines (u : SourceUnit) (r : Run) (lines : List (List Scanned)) :
    ∃ n, (takeLines u r lines).frames = ((lines.take n).foldl (take u) r).frames := by
  induction lines generalizing r with
  | nil => exact ⟨0, rfl⟩
  | cons line lines ih =>
    rw [takeLines]
    split
    · exact ⟨0, (OnlyNotes.noteFaults r line).frames⟩
    · obtain ⟨n, hn⟩ := ih (take u r line)
      exact ⟨n + 1, hn⟩

theorem frames_finish (u : SourceUnit) (r : Run) : (r.finish u).frames = r.frames := by
  obtain ⟨-, hflush, -⟩ := flush_spec u r
  rw [finish]
  split
  · rfl
  · simp only
    split
    · exact hflush
    · exact hflush

/-- After any lines the outermost open frame is not dead, and another one is dead exactly if the one
around it is not in its live branch; so text is live if all frames are. At most one branch of a frame
became live, and exactly one if the frame was opened in live text and its `#else` accepted. How many
frames are open depends on the conditional directives of the lines alone. What a run ends with is such
a state, as it has taken the first lines of its source. -/
theorem frames_of_lines (u : SourceUnit) (table : Table) (journal : Journal)
    (lines : List (List Scanned)) :
    let r : Run := { table, journal }
    let w := lines.foldl (Watched.take u) { run := r }
    w.run = lines.foldl (take u) r ∧
      (∀ frame ∈ w.run.frames.getLast?, frame.branch ≠ .dead) ∧
      (w.run.frames.IsChain fun inner outer => inner.branch = .dead ↔ outer.branch ≠ .active) ∧
      (w.run.isLive = true ↔ ∀ frame ∈ w.run.frames, frame.branch = .active) ∧
      List.Forall₂ (fun _ log => log.entered ≤ 1 ∧
        (log.openedLive = true → log.otherwise = true → log.entered = 1)) w.run.frames w.logs ∧
      w.run.frames.length =
        (lines.map fun line => (LineForm.of (line.map Scanned.token)).conditional?).foldl
          depthAfter 0 ∧
      ∃ n, ((takeLines u r lines).finish u).frames = ((lines.take n).foldl (take u) r).frames := by
  intro r w
  have hrun : w.run = lines.foldl (take u) r := run_watched u { run := r } lines
  have hstacked : Stacked w.run.frames w.logs := stacked_watched (w := { run := r }) .nil u lines
  refine ⟨hrun, hstacked.getLast_not_dead, hstacked.isChain, hstacked.isLive_iff, hstacked.entered,
    ?_, ?_⟩
  · rw [hrun]
    exact depth_frames u r lines
  · rw [frames_finish]
    exact exists_frames_takeLines u r lines

end Run

end CPreprocessor
