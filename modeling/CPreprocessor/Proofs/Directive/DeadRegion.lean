import CPreprocessor.Proofs.Directive.Recast
import CPreprocessor.Proofs.Directive.SkippedText
import CPreprocessor.Proofs.Directive.Skipping

/-!
# A group that is never processed

What stands between `#if 0` and its `#endif` may be replaced by empty lines: a run comes to the same,
with the same diagnostics (`Run.start_skipping`). Diagnostics quote lines by every line boundary and
are placed by newlines, so there may be at most one more of the former before the group.
-/

namespace CPreprocessor

open Source

namespace Run

variable {u v : SourceUnit} {r : Run} {line : List Scanned} {lines : List (List Scanned)}

theorem takeLines_append (h : (takeLines u r lines).aborted = false) (more : List (List Scanned)) :
    takeLines u r (lines ++ more) = takeLines u (takeLines u r lines) more := by
  induction lines generalizing r with
  | nil => rfl
  | cons line lines ih =>
    rw [takeLines] at h
    rw [List.cons_append, takeLines, takeLines]
    split at h
    · rename_i haborted
      rw [haborted] at h
      cases h
    · rename_i haborted
      rw [if_neg haborted, if_neg haborted]
      exact ih h

/-- Once a run is stopped, only the faults of the next line are looked at. -/
theorem takeLines_append_of_aborted (h : (takeLines u r lines).aborted = true)
    (line : List Scanned) (more more' : List (List Scanned)) :
    takeLines u r (lines ++ line :: more) = takeLines u r (lines ++ line :: more') := by
  induction lines generalizing r with
  | nil =>
    have haborted : (r.noteFaults u line).aborted = true := by rw [aborted_noteFaults]; exact h
    rw [List.nil_append, List.nil_append, takeLines, takeLines, if_pos haborted, if_pos haborted]
  | cons line' lines ih =>
    rw [takeLines] at h
    rw [List.cons_append, List.cons_append, takeLines, takeLines]
    split at h
    · rename_i haborted
      rw [if_pos haborted, if_pos haborted]
    · rename_i haborted
      rw [if_neg haborted, if_neg haborted]
      exact ih h

theorem takeLines_cons (h : r.aborted = false) (more : List (List Scanned)) :
    takeLines u r (line :: more) = takeLines u (take u r line) more := by
  have haborted : (r.noteFaults u line).aborted = false := by rw [aborted_noteFaults, h]
  rw [takeLines, if_neg (by simp [haborted]), take]

theorem isFull_of_take (u : SourceUnit) (r : Run) (line : List Scanned)
    (h : (take u r line).aborted = false) :
    (take u r line).journal.isFull = false := by
  rw [take, checkJournal] at h ⊢
  split at h
  · cases h
  · rename_i hfull
    rw [if_neg hfull]
    simpa using hfull

/-! The condition `0` -/

theorem holds_zero (u : SourceUnit) (table : Table) (file : String) (line : Int)
    (mark : Location) :
    Effect.holds u table
      [{ kind := .whitespace, text := " ", location := ⟨file, line, 4⟩ },
        { kind := .number, text := "0", location := ⟨file, line, 5⟩ }] mark = false := by
  generalize htokens : ([{ kind := .whitespace, text := " ", location := ⟨file, line, 4⟩ },
    { kind := .number, text := "0", location := ⟨file, line, 5⟩ }] : List Token) = tokens
  have hresolve : ∀ isDefined, Defined.resolve isDefined tokens = .ok tokens := by
    intro isDefined
    rw [← htokens]
    cbv
  have hexpand : ∀ e : Expander, e.expand tokens = .ok ⟨tokens, []⟩ := by
    intro e
    rw [← htokens]
    cbv
  have hevaluate : ∀ s : Setting, (evaluate s tokens).result = .ok ⟨0, false⟩ := by
    intro s
    rw [← htokens]
    cbv
  unfold Effect.holds SourceUnit.evaluate
  simp only [hresolve, hexpand, hevaluate]
  rfl

/-- The line `#if 0`, as a directive. -/
def openingDirective (file : String) (line : Int) : ConditionalLine (.opening .ifTrue) where
  tokens := (openingLine file line).map Scanned.token
  mark := { kind := .punctuator, text := "#", location := ⟨file, line, 1⟩ }
  name := { kind := .identifier, text := "if", location := ⟨file, line, 2⟩ }
  rest :=
    [{ kind := .whitespace, text := " ", location := ⟨file, line, 4⟩ },
      { kind := .number, text := "0", location := ⟨file, line, 5⟩ }]
  form := by cbv
  keyword := by cbv

/-- The line `#endif`, as a directive. -/
def closingDirective (file : String) (line : Int) : ConditionalLine .closing where
  tokens := (closingLine file line).map Scanned.token
  mark := { kind := .punctuator, text := "#", location := ⟨file, line, 1⟩ }
  name := { kind := .identifier, text := "endif", location := ⟨file, line, 2⟩ }
  rest := []
  form := by cbv
  keyword := by cbv

theorem take_openingLine (u : SourceUnit) (r : Run) (file : String) (line : Int) :
    (take u r (openingLine file line)).pending = [] ∧
      (take u r (openingLine file line)).isLive = false ∧
      ∃ frame, (take u r (openingLine file line)).frames = frame :: r.frames := by
  obtain ⟨-, hpending, frame, hframes, -, hactive⟩ := take_opening (u := u) (r := r)
    (openingLine file line) (openingDirective file line) rfl (.inl rfl) rfl
  refine ⟨hpending, ?_, frame, hframes⟩
  rw [isLive_of_frames hframes, isLive_cons, decide_eq_false_iff_not]
  intro hbranch
  have htaken := hactive.mp hbranch
  split at htaken
  · have hzero := holds_zero u (r.effect.text u r.pending).table file line
      (openingDirective file line).mark.location
    exact Bool.false_ne_true (hzero.symm.trans (Option.some.inj htaken))
  · cases htaken

/-- An `#endif` closes the innermost frame. -/
theorem conditional_closing {frame : Frame} {outer : List Frame} (hframes : r.frames = frame :: outer)
    (mark : Location) : r.conditional u .closing [] mark = r.pass outer [] := by
  have hextra : r.warnExtraInside .closing [] = r := by
    rw [warnExtraInside]
    split
    · rfl
    · rfl
  unfold conditional
  rw [hframes]
  simp only [hextra, pass, List.append_nil]

theorem takeLines_closingLine (h : r.Dormant) {frame : Frame} {outer : List Frame}
    (hframes : r.frames = frame :: outer) (file : String) (line : Int)
    (more : List (List Scanned)) :
    takeLines u r (closingLine file line :: more) = takeLines u (r.pass outer []) more := by
  have htake : r.takeLine u ((closingLine file line).map Scanned.token) = r.pass outer [] := by
    rw [h.takeLine_eq (closingDirective file line) rfl]
    exact conditional_closing hframes _
  have hjournal : (r.pass outer []).checkJournal = r.pass outer [] := by
    rw [checkJournal, pass, h.notFull]
    rfl
  rw [h.takeLines_cons, htake, hjournal]

theorem verdicts_finish (u : SourceUnit) (r : Run) : (r.finish u).verdicts = r.verdicts := by
  have hflush : (r.flush u).verdicts = r.verdicts :=
    congrArg Effect.verdicts (flush_spec u r).1
  simp only [finish]
  split
  · rfl
  split
  · exact hflush
  · exact hflush

/-- Two runs that differ at most in verdicts at places with a property, and no such verdict decides
anything. -/
structure EqualBut (P : Location → Prop) [DecidablePred P] (r r' : Run) : Prop where
  output : r.output = r'.output
  diagnostics : r.journal.entries = r'.journal.entries
  table : r.table = r'.table
  aborted : r.aborted = r'.aborted
  verdicts : r.verdicts.filter (fun v => ¬ P v.location) = r'.verdicts
  undecided : ∀ v ∈ r.verdicts, P v.location → v.taken = none

/-- What a run does after the verdicts of the group does not depend on them. -/
theorem EqualBut.after {P : Location → Prop} [DecidablePred P] {before inside : List Verdict}
    (hbefore : ∀ v ∈ before, ¬ P v.location) (hafter : ∀ v ∈ r.verdicts, ¬ P v.location)
    (hinside : ∀ v ∈ inside, v.taken = none ∧ P v.location) :
    EqualBut P (r.after (before ++ inside)) (r.after before) := by
  refine ⟨rfl, rfl, rfl, rfl, ?_, fun v hv hplace => ?_⟩
  · have hkeep : ∀ vs : List Verdict, (∀ v ∈ vs, ¬ P v.location) →
        vs.filter (fun v => ¬ P v.location) = vs := fun vs hvs =>
      List.filter_eq_self.mpr fun v hv => decide_eq_true (hvs v hv)
    have hdrop : inside.filter (fun v => ¬ P v.location) = [] :=
      List.filter_eq_nil_iff.mpr fun v hv hnot =>
        absurd (hinside v hv).2 (of_decide_eq_true hnot)
    rw [List.filter_append, List.filter_append, hkeep before hbefore, hdrop,
      hkeep r.verdicts hafter, List.append_nil]
  · rcases List.mem_append.mp hv with hv | hv
    · rcases List.mem_append.mp hv with hv | hv
      · exact absurd hplace (hbefore v hv)
      · exact (hinside v hv).1
    · exact absurd hplace (hafter v hv)

theorem EqualBut.refl {P : Location → Prop} [DecidablePred P]
    (h : ∀ v ∈ r.verdicts, ¬ P v.location) : EqualBut P r r :=
  ⟨rfl, rfl, rfl, rfl, List.filter_eq_self.mpr fun v hv => decide_eq_true (h v hv),
    fun v hv hplace => absurd hplace (h v hv)⟩

theorem takeLines_of_stopped (haborted : r.aborted = true) (hdead : r.isLive = false)
    (lines : List (List Scanned)) : takeLines u r lines = r := by
  cases lines with
  | nil => rfl
  | cons line lines =>
    have hnote : r.noteFaults u line = r := by
      rw [noteFaults, hdead]
      rfl
    rw [takeLines, hnote, if_pos haborted]

/-- A run that does not stop before the body of a group goes on after the group with the frames from
before it. -/
theorem takeLines_pass {P : Location → Prop} {body : List (List Scanned)} {file : String}
    {first : Int} (h : r.aborted = false) (htake : (take u r (openingLine file first)).aborted = false)
    (hbody : ∀ r : Run, r.Dormant → Skips P u r body r.frames) (last : Int) :
    ∃ vs : List Verdict, (∀ v ∈ vs, v.taken = none ∧ P v.location) ∧
      ∀ below, takeLines u r (openingLine file first :: (body ++ closingLine file last :: below)) =
        takeLines u ((take u r (openingLine file first)).pass r.frames vs) below := by
  have hfull := isFull_of_take u r (openingLine file first) htake
  obtain ⟨hpending, hdead, frame, hframes⟩ := take_openingLine u r file first
  simp only [takeLines_cons h]
  generalize take u r (openingLine file first) = r' at htake hfull hpending hdead hframes ⊢
  have hdormant : r'.Dormant := ⟨hdead, hpending, hfull, htake⟩
  obtain ⟨vs, hvs, hskip⟩ := hbody r' hdormant
  refine ⟨vs, hvs, fun below => ?_⟩
  rw [hskip, takeLines_closingLine (hdormant.pass hdead vs) hframes, pass_pass, List.append_nil]

/-- Two runs over sources that agree beside a group, where one skips the body of the group and the
other finds text in it. -/
theorem takeLines_group {P Q : Location → Prop} [DecidablePred P] (hagree : SourceUnit.Agree Q u v)
    (hne : ∀ location, Q location → ¬ P location) {above body texts below : List (List Scanned)}
    {file : String} {first last : Int}
    (habove : ∀ line ∈ above, StandAt Q (line.map Scanned.token))
    (hopening : StandAt Q ((openingLine file first).map Scanned.token))
    (hbody : ∀ r : Run, r.Dormant → Skips P u r body r.frames)
    (htexts : ∀ line ∈ texts, LineForm.of (line.map Scanned.token) = .text)
    (hbelow : ∀ line ∈ below, StandAt Q (line.map Scanned.token)) (hr : r.Stands Q) :
    EqualBut P
      ((takeLines u r
        (above ++ openingLine file first :: (body ++ closingLine file last :: below))).finish u)
      ((takeLines v r
        (above ++ openingLine file first :: (texts ++ closingLine file last :: below))).finish v) := by
  obtain ⟨heq₁, hstands₁⟩ := takeLines_congr hagree habove hr
  have hsame : ∀ {r₁ r₂ : Run}, r₁ = r₂ → r₂.Stands Q → EqualBut P (r₁.finish u) (r₂.finish v) := by
    rintro r₁ r₂ rfl hstands
    rw [finish_congr hagree hstands]
    refine .refl fun verdict hverdict => hne _ (hstands.verdicts verdict ?_)
    rwa [← verdicts_finish v]
  cases haborted : (takeLines v r above).aborted with
  | true =>
    rw [takeLines_append_of_aborted (by rw [heq₁, haborted]) _ _ [],
      takeLines_append_of_aborted haborted _ _ []]
    obtain ⟨heq, hstands⟩ := takeLines_congr hagree (List.forall_mem_append.mpr
      ⟨habove, List.forall_mem_singleton.mpr hopening⟩) hr
    exact hsame heq hstands
  | false =>
    rw [takeLines_append (by rw [heq₁, haborted]), heq₁, takeLines_append haborted]
    generalize takeLines v r above = r₁ at haborted hstands₁ ⊢
    have htake := take_congr hagree hopening hstands₁
    have hstands₂ := hstands₁.take v hopening
    cases haborted₂ : (take v r₁ (openingLine file first)).aborted with
    | true =>
      obtain ⟨-, hdead, -⟩ := take_openingLine v r₁ file first
      rw [takeLines_cons haborted, takeLines_cons haborted, htake,
        takeLines_of_stopped haborted₂ hdead, takeLines_of_stopped haborted₂ hdead]
      exact hsame rfl hstands₂
    | false =>
      obtain ⟨vs, hvs, hskip⟩ := takeLines_pass haborted (by rw [htake, haborted₂]) hbody last
      obtain ⟨ws, hws, hskip'⟩ := takeLines_pass (P := fun _ => False) haborted haborted₂
        (fun r hr => .texts hr htexts) last
      obtain rfl : ws = [] := List.eq_nil_iff_forall_not_mem.mpr fun w hw => (hws w hw).2
      obtain ⟨-, -, frame, hframes⟩ := take_openingLine v r₁ file first
      rw [hskip, hskip', htake]
      generalize take v r₁ (openingLine file first) = r₂ at hstands₂ hframes ⊢
      -- Both runs leave the group as `r₃`, with different verdicts before.
      generalize hr₃ : ({ r₂ with frames := r₁.frames, verdicts := [] } : Run) = r₃
      have hleft : r₂.pass r₁.frames vs = r₃.after (r₂.verdicts ++ vs) := by
        rw [← hr₃, pass, after, List.append_nil]
      have hright : r₂.pass r₁.frames [] = r₃.after r₂.verdicts := by
        rw [← hr₃, pass, after]
      have hstands₃ : r₃.Stands Q := by
        have houter := hstands₂.frames
        rw [hframes] at houter
        rw [← hr₃]
        exact ⟨hstands₂.pending, (List.forall_mem_cons.mp houter).2,
          fun verdict hverdict => absurd hverdict List.not_mem_nil⟩
      obtain ⟨heq, hstands⟩ := takeLines_congr hagree hbelow hstands₃
      rw [hleft, hright, takeLines_after, takeLines_after, finish_after, finish_after, heq,
        finish_congr hagree hstands]
      refine .after (fun verdict hverdict => hne _ (hstands₂.verdicts verdict hverdict))
        (fun verdict hverdict => hne _ (hstands.verdicts verdict ?_)) hvs
      rwa [← verdicts_finish v]

end Run

open Run

/-- The body of a group that begins with `#if 0` may be replaced by empty lines. -/
theorem Run.start_skipping (file before body after : String) (setup : Setup) (table : Table)
    (block : Block fun _ _ => True) (hbefore : (beforeGroup file before).EndsLine)
    (hbody : (inGroup file before body).EndsLine)
    (hlines : (Text.boundaryLines before.toList).length ≤ before.toList.count '\n' + 1)
    (honly : Text.OnlyNewlines body.toList)
    (hblock : (inGroup file before body).logicalLines.map (·.map Scanned.token) = block.lines) :
    EqualBut (InBody file before body)
      (start { source := { text := skippingText before body after, file }, setup } table)
      (start { source := { text := skippingText before (emptyLines body) after, file }, setup }
        table) := by
  have hempty : (inGroup file before (emptyLines body)).EndsLine := .of_blankLines rfl
  unfold start
  simp only
  rw [logicalLines_skippingText hbefore hbody, logicalLines_skippingText hbefore hempty,
    firstLine_emptyLines, newlines_emptyLines, afterGroup_emptyLines]
  refine takeLines_group
    (agree_skipping hbefore hbody hlines honly setup after)
    (fun _ hbeside => hbeside.not_inBody)
    (fun line hline t ht => .inl (standAt_beforeGroup hbefore hline t ht))
    (fun t ht => .inl (standAt_openingLine t ht)) (fun r hr => ?_)
    (fun line hline => form_blankLines rfl hline)
    (fun line hline => standAt_afterGroup hline) (.initial ..)
  exact block.skips _ r _ hblock (fun line hline => standAt_inGroup hbody hline) hr

/-- The line `#error x`. -/
def errorTokens (file : String) (line : Int) : List Token :=
  [{ kind := .punctuator, text := "#", location := ⟨file, line, 1⟩ },
    { kind := .identifier, text := "error", location := ⟨file, line, 2⟩ },
    { kind := .whitespace, text := " ", location := ⟨file, line, 7⟩ },
    { kind := .identifier, text := "x", location := ⟨file, line, 8⟩ },
    { kind := .newline, text := "\n", location := ⟨file, line, 9⟩ }]

theorem scan_error (file : String) (line : Int) :
    ({ text := "#error x\n", file, firstLine := line } : Source).scan =
      (errorTokens file line).map (⟨·, none⟩) := by
  cbv

/-- The line `#error x`, as a directive. -/
def errorLine (file : String) (line : Int) : PlainLine where
  val := errorTokens file line
  property := by
    have hform : LineForm.of (errorTokens file line) =
        .directive { kind := .punctuator, text := "#", location := ⟨file, line, 1⟩ }
          { kind := .identifier, text := "error", location := ⟨file, line, 2⟩ }
          [{ kind := .whitespace, text := " ", location := ⟨file, line, 7⟩ },
            { kind := .identifier, text := "x", location := ⟨file, line, 8⟩ }] := by cbv
    rw [hform]
    exact nofun

/-- An `#error` and a quotation mark without a second one leave no trace in such a group. -/
theorem Run.output_skipping :
    (start { source := { text := skippingText "a\n" "#error x\n'\n" "b\n" } } ∅).output.map
      Token.text = ["a", "\n", "b", "\n"] := by
  let at_ (kind : Kind) (text : String) (line column : Int) : Token :=
    { kind, text, location := ⟨"<input>", line, column⟩ }
  let mark : TextLine := ⟨[at_ .whitespace " " 4 1, at_ .newline "\n" 4 2], by cbv⟩
  have hbefore : (beforeGroup "<input>" "a\n").scan =
      [⟨at_ .identifier "a" 1 1, none⟩, ⟨at_ .newline "\n" 1 2, none⟩] := by cbv
  have hbody : (inGroup "<input>" "a\n" "#error x\n'\n").scan =
      (errorTokens "<input>" 3).map (⟨·, none⟩) ++
        [⟨at_ .whitespace " " 4 1, some .unterminatedCharacter⟩, ⟨at_ .newline "\n" 4 2, none⟩] := by
    cbv
  have h := start_skipping "<input>" "a\n" "#error x\n'\n" "b\n" {} ∅
    (.plain [] (errorLine "<input>" 3) (.last [mark])) (endsLine_of_scan hbefore rfl rfl)
    (endsLine_of_scan hbody rfl rfl) (by decide) (by decide)
    (by rw [Source.logicalLines, hbody]; cbv)
  rw [h.output]
  cbv

/-- With two form feeds before a group, a `#warning` after it gives the text of a line in it. -/
theorem Run.start_skipping_formFeed :
    (beforeGroup "<input>" "\x0c\x0c\n").EndsLine ∧
      (inGroup "<input>" "\x0c\x0c\n" "#error x\n").EndsLine ∧
      Text.OnlyNewlines "#error x\n".toList ∧
      (∃ block : Block fun _ _ => True,
        (inGroup "<input>" "\x0c\x0c\n" "#error x\n").logicalLines.map (·.map Scanned.token) =
          block.lines) ∧
      ¬ EqualBut (InBody "<input>" "\x0c\x0c\n" "#error x\n")
        (start { source := { text := skippingText "\x0c\x0c\n" "#error x\n" "#warning w\n" } } ∅)
        (start { source :=
          { text := skippingText "\x0c\x0c\n" (emptyLines "#error x\n") "#warning w\n" } } ∅) := by
  have hbefore : (beforeGroup "<input>" "\x0c\x0c\n").scan =
      [⟨{ kind := .whitespace, text := "\x0c\x0c", location := ⟨"<input>", 1, 1⟩ }, none⟩,
        ⟨{ kind := .newline, text := "\n", location := ⟨"<input>", 1, 3⟩ }, none⟩] := by cbv
  have hbody : (inGroup "<input>" "\x0c\x0c\n" "#error x\n").scan =
      (errorTokens "<input>" 3).map (⟨·, none⟩) := scan_error "<input>" 3
  refine ⟨endsLine_of_scan hbefore rfl rfl, endsLine_of_scan hbody rfl rfl, by decide,
    ⟨.plain [] (errorLine "<input>" 3) (.last []), by rw [Source.logicalLines, hbody]; cbv⟩,
    fun h => ?_⟩
  have hfull : (start { source :=
      { text := skippingText "\x0c\x0c\n" "#error x\n" "#warning w\n" } } ∅).journal.entries.map
        Diagnostic.message = ["#warning x"] := by cbv
  have hempty : (start { source :=
      { text := skippingText "\x0c\x0c\n" (emptyLines "#error x\n") "#warning w\n" } }
        ∅).journal.entries.map Diagnostic.message = ["#warning w"] := by cbv
  rw [h.diagnostics, hempty] at hfull
  exact absurd hfull (by decide)

end CPreprocessor
