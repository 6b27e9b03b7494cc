import CPreprocessor.Proofs.Directive.FatalError
import CPreprocessor.Proofs.Directive.Relocation

/-!
# A run that goes on

A run that goes on from where another one ended does what a new run does with the macros that were
left, wherever the lines stand. The two may differ in their journals: these have a say only where they
are full (`Run.InStep.takeLines`).
-/

namespace CPreprocessor

namespace Run

/-- The run `r'` has done what `base` did and then what the run `r` did, at other places. -/
structure Continues (f : Location → Location) (base r r' : Run) : Prop where
  table : Table.Moved f base.table r.table r'.table
  frames : r'.frames = r.frames.map (.relocate f)
  verdicts : r'.verdicts = base.verdicts ++ r.verdicts.map (.relocate f)
  output : r'.output = base.output ++ r.output.map (.relocate f)
  pending : r'.pending = r.pending.map (List.map (.relocate f))
  aborted : r'.aborted = r.aborted

/-- Two runs of which the second goes on as the first one does. If their sources are `exact`, quoting
the same, their errors are counted alike. -/
structure InStep (f : Location → Location) (base : Run) (exact : Prop) (r r' : Run) : Prop extends
    Continues f base r r' where
  placeless : r.table.Placeless
  errors : exact → r'.journal.errorCount = base.journal.errorCount + r.journal.errorCount

variable {f : Location → Location} {base r r' s s' : Run} {exact : Prop} {u u' : SourceUnit}
  {mark : Location} {rest : List Token}

/-! ## Journals -/

theorem length_faultReports (u : SourceUnit) (line : List Scanned) :
    (faultReports u line).length =
      line.countP fun t => t.fault.isSome && !inMessage u t.token.location := by
  rw [faultReports, List.length_filterMap_eq_countP, List.countP_filter]
  refine List.countP_congr fun t _ => ?_
  rw [Source.reportOf?, Option.isSome_map]
  cases t.fault <;> simp

/-- How many errors a step of a run enters, if it does nothing else. -/
structure Notes (count : Nat) (r s : Run) : Prop extends OnlyNotes r s where
  aborted : s.aborted = r.aborted
  errors : s.journal.errorCount = r.journal.errorCount + count

namespace Notes

theorem refl (r : Run) : Notes 0 r r := ⟨.refl r, rfl, rfl⟩

theorem trans {m n : Nat} {t : Run} (h : Notes m r s) (h' : Notes n s t) : Notes (m + n) r t where
  toOnlyNotes := h.toOnlyNotes.trans h'.toOnlyNotes
  aborted := h'.aborted.trans h.aborted
  errors := by rw [h'.errors, h.errors, Nat.add_assoc]

theorem record (r : Run) (report : Report) : Notes 1 r (r.record report) where
  toOnlyNotes := .record r report
  aborted := rfl
  errors := by
    simp only [Run.record, Journal.error, Journal.add, Journal.errorCount, Journal.errors,
      List.filter_append, List.length_append]
    rfl

theorem warn (r : Run) (message : String) (location : Option Location) :
    Notes 0 r (r.warn message location) where
  toOnlyNotes := .warn r message location
  aborted := rfl
  errors := by simp [Run.warn, Journal.warning, Journal.add, Journal.errorCount, Journal.errors,
    Diagnostic.isError]

theorem warnExtra (r : Run) (directive : String) (extra : List Token) :
    Notes 0 r (r.warnExtra directive extra) := by
  cases extra with
  | nil => exact refl r
  | cons t ts => exact warn ..

theorem warnExtraInside (r : Run) (directive : Conditional) (rest : List Token) :
    Notes 0 r (r.warnExtraInside directive rest) := by
  rw [Run.warnExtraInside]
  split
  · exact warnExtra ..
  · exact refl r

theorem foldl_record (reports : List Report) (r : Run) :
    Notes reports.length r (reports.foldl Run.record r) := by
  induction reports generalizing r with
  | nil => exact refl r
  | cons report reports ih =>
    have h := (record r report).trans (ih (r.record report))
    rwa [Nat.add_comm] at h

theorem foldl_warn {α : Type} {step : Run → α → Run} (h : ∀ r a, Notes 0 r (step r a)) (as : List α)
    (r : Run) : Notes 0 r (as.foldl step r) := by
  induction as generalizing r with
  | nil => exact refl r
  | cons a as ih => exact (h r a).trans (ih _)

/-- A conflict is only warned of. -/
theorem conflict (r : Run) (conflict? : Option Conflict) (location : Option Location) :
    Notes 0 r
      (match conflict? with
        | none => r
        | some conflict =>
          r.warn (conflict.message ++
            (conflict.hint?.map fun hint => " (" ++ hint ++ ")").getD "") location) := by
  cases conflict? with
  | none => exact .refl r
  | some conflict => exact .warn ..

theorem noteFaults (u : SourceUnit) (r : Run) (line : List Scanned) :
    Notes (if r.isLive then (faultReports u line).length else 0) r (r.noteFaults u line) := by
  rw [Run.noteFaults]
  split
  · exact foldl_record (faultReports u line) r
  · exact refl r

end Notes

/-- Whether no run of two that do the same is stopped by its journal: there is room for all errors of
the run `r` and of what was before it, or neither journal is full. -/
def Room (base : Run) (exact : Prop) (r r' : Run) : Prop :=
  (exact ∧ (base.journal.errorCount + r.journal.errorCount : Int) < r.journal.limit) ∨
    (r.journal.isFull = false ∧ r'.journal.isFull = false)

theorem Room.of_extends (h : Room base exact s s') (hr : Extends r s) (hr' : Extends r' s') :
    Room base exact r r' := by
  have hcount := Journal.errorCount_le hr.entries
  have hcount' := Journal.errorCount_le hr'.entries
  have hlimit := hr.limit
  have hlimit' := hr'.limit
  rcases h with ⟨hexact, h⟩ | ⟨h, h'⟩
  · exact .inl ⟨hexact, by omega⟩
  · refine .inr ⟨?_, ?_⟩
    · simp only [Journal.isFull, decide_eq_false_iff_not] at h ⊢
      omega
    · simp only [Journal.isFull, decide_eq_false_iff_not] at h' ⊢
      omega

namespace InStep

/-- What is entered into the journals has no say, as long as errors are counted alike. -/
theorem notes (h : InStep f base exact r r') {m n : Nat} (hs : Notes m r s) (hs' : Notes n r' s')
    (hcount : exact → n = m) : InStep f base exact s s' where
  table := by
    have ht : s.table = r.table := congrArg Effect.table hs.effect
    have ht' : s'.table = r'.table := congrArg Effect.table hs'.effect
    rw [ht, ht']
    exact h.table
  frames := by rw [hs'.frames, hs.frames, h.frames]
  verdicts := by
    have hv : s.verdicts = r.verdicts := congrArg Effect.verdicts hs.effect
    have hv' : s'.verdicts = r'.verdicts := congrArg Effect.verdicts hs'.effect
    rw [hv, hv', h.verdicts]
  output := by
    have ho : s.output = r.output := congrArg Effect.output hs.effect
    have ho' : s'.output = r'.output := congrArg Effect.output hs'.effect
    rw [ho, ho', h.output]
  pending := by rw [hs'.pending, hs.pending, h.pending]
  aborted := by rw [hs'.aborted, hs.aborted, h.aborted]
  placeless := by
    have ht : s.table = r.table := congrArg Effect.table hs.effect
    rw [ht]
    exact h.placeless
  errors hexact := by
    rw [hs'.errors, hs.errors, h.errors hexact, hcount hexact, Nat.add_assoc]

theorem isLive (h : InStep f base exact r r') : r'.isLive = r.isLive := by
  rw [Run.isLive, h.frames, isLive_relocate, Run.isLive]

theorem record (h : InStep f base exact r r') (report report' : Report) :
    InStep f base exact (r.record report) (r'.record report') :=
  h.notes (.record r report) (.record r' report') fun _ => rfl

theorem abort (h : InStep f base exact r r') (report report' : Report) :
    InStep f base exact (r.abort report) (r'.abort report') :=
  have herrors : ∀ (r : Run) (report : Report),
      (r.abort report).journal.errorCount = r.journal.errorCount + 1 := fun r report => by
    simp only [Run.abort, Journal.error, Journal.add, Journal.errorCount, Journal.errors,
      List.filter_append, List.length_append]
    rfl
  { h with
    aborted := rfl
    errors := fun hexact => by rw [herrors, herrors, h.errors hexact, Nat.add_assoc] }

theorem setFrames (h : InStep f base exact r r') (frames : List Frame) :
    InStep f base exact { r with frames } { r' with frames := frames.map (.relocate f) } :=
  { h with frames := rfl }

theorem judge (h : InStep f base exact r r') (directive : Conditional) (taken : Option Bool) :
    InStep f base exact (r.judge directive mark taken rest)
      (r'.judge directive (f mark) taken (rest.map (.relocate f))) :=
  { h with
    verdicts := by
      simp only [Run.judge]
      rw [h.verdicts, conditionText_relocate, List.map_append, List.append_assoc]
      rfl }

/-! ## Text -/

theorem emit (h : InStep f base exact r r') (hsetup : u'.setup = u.setup)
    (tokens : List Token) :
    InStep f base exact (r.emit u tokens) (r'.emit u' (tokens.map (.relocate f))) :=
  { h with
    output := by
      have hput : outputToken u.setup.keepComments ∘ Token.relocate f =
          Token.relocate f ∘ outputToken u.setup.keepComments :=
        funext fun t => outputToken_relocate _ t
      simp only [Run.emit]
      rw [h.output, hsetup, List.map_append, List.map_map, List.map_map, hput, List.append_assoc] }

theorem expandLine (h : InStep f base exact r r') (hsetup : u'.setup = u.setup)
    (line : List Token) :
    InStep f base exact (Run.expandLine u r line)
      (Run.expandLine u' r' (line.map (.relocate f))) := by
  have hexpand := Expander.expand_relocate (f := f)
    (SourceUnit.alike_expander hsetup h.table) (.inl h.placeless) line
  rw [Run.expandLine, Run.expandLine, hexpand]
  cases (u.expander r.table).expand line with
  | error error => exact h.record ..
  | ok expansion => exact h.emit hsetup expansion.tokens

theorem expandLines (h : InStep f base exact r r') (hsetup : u'.setup = u.setup)
    (lines : List (List Token)) :
    InStep f base exact (lines.foldl (Run.expandLine u) r)
      ((lines.map (List.map (.relocate f))).foldl (Run.expandLine u') r') := by
  induction lines generalizing r r' with
  | nil => exact h
  | cons line lines ih => exact ih (h.expandLine hsetup line)

theorem flush (h : InStep f base exact r r') (hsetup : u'.setup = u.setup) :
    InStep f base exact (r.flush u) (r'.flush u') := by
  have hnone : InStep f base exact { r with pending := [] } { r' with pending := [] } :=
    { h with pending := rfl }
  have hexpand := Expander.expand_relocate (f := f)
    (SourceUnit.alike_expander hsetup h.table) (.inl h.placeless) r.pending.flatten
  simp only [Run.flush]
  rw [h.pending, List.isEmpty_map, ← List.map_flatten, hexpand]
  split
  · exact hnone
  cases (u.expander r.table).expand r.pending.flatten with
  | error error => exact hnone.expandLines hsetup r.pending
  | ok expansion => exact hnone.emit hsetup expansion.tokens

/-! ## Directives -/

theorem define (h : InStep f base exact r r') :
    InStep f base exact (r.define rest mark) (r'.define (rest.map (.relocate f)) (f mark)) := by
  have hparse := Definition.parse_relocate (f := f) rest (some mark) false
  rw [Option.map_some] at hparse
  rw [Run.define, Run.define, hparse]
  cases hd : Definition.parse rest mark false with
  | error fault => exact h.record ..
  | ok d =>
    simp only [moved_ok]
    rw [show (d.relocate f).name = d.name from rfl, h.table.any_builtin]
    split
    · exact h.notes (.warn ..) (.warn ..) fun _ => rfl
    have hdefined : InStep f base exact { r with table := r.table.define d }
        { r' with table := r'.table.define (d.relocate f) } :=
      { h with
        table := h.table.define d
        placeless := h.placeless.define (Definition.builtin_of_parse hd) }
    exact hdefined.notes (.conflict ..) (.conflict ..) fun _ => rfl

theorem undefine (h : InStep f base exact r r') :
    InStep f base exact (r.undefine u rest mark)
      (r'.undefine u' (rest.map (.relocate f)) (f mark)) := by
  rw [Run.undefine, Run.undefine, macroName_relocate]
  cases macroName "undef" rest mark with
  | error fault => exact h.record ..
  | ok operand =>
    obtain ⟨name, extra⟩ := operand
    -- both steps before the table is changed only warn
    have hnotes : ∀ (r : Run) (name : Token) (extra : List Token), Notes 0 r
        (if ((r.warnExtra "undef" extra).table.lookup name.text).any Definition.builtin then
          (r.warnExtra "undef" extra).warn ("undefining builtin macro '" ++ name.text ++ "'")
            name.location
        else r.warnExtra "undef" extra) := by
      intro r name extra
      split
      · exact (Notes.warnExtra ..).trans (.warn ..)
      · exact .warnExtra ..
    have hwarned := h.notes (hnotes r name extra)
      (hnotes r' (name.relocate f) (extra.map (.relocate f))) fun _ => rfl
    exact
      { hwarned with
        table := hwarned.table.undefine name.text name.location
        placeless := hwarned.placeless.undefine name.text name.location }

theorem test (h : InStep f base exact r r') (hsetup : u'.setup = u.setup) (rest : List Token)
    (mark : Location) :
    InStep f base exact (r.test u rest mark).1 (r'.test u' (rest.map (.relocate f)) (f mark)).1 ∧
      (r'.test u' (rest.map (.relocate f)) (f mark)).2 = (r.test u rest mark).2 := by
  have hresult := SourceUnit.evaluate_relocate hsetup h.table h.placeless rest mark
  simp only [Run.test]
  generalize u.evaluate r.table rest mark = evaluated at hresult ⊢
  generalize u'.evaluate r'.table (rest.map (.relocate f)) (f mark) = evaluated' at hresult ⊢
  obtain ⟨result, undefined⟩ := evaluated
  obtain ⟨result', undefined'⟩ := evaluated'
  have hnotes : ∀ (warn : Bool) (r : Run) (undefined : List Token), Notes 0 r
      (if warn then undefined.foldl (fun r t =>
        r.warn ("'" ++ t.text ++ "' is not defined, evaluates to 0") t.location) r else r) := by
    intro warn r undefined
    split
    · exact .foldl_warn (fun r t => .warn ..) _ _
    · exact .refl r
  have hwarned := h.notes (hnotes u.setup.warnUndefined r undefined)
    (hnotes u'.setup.warnUndefined r' undefined') fun _ => rfl
  cases result with
  | error report =>
    cases result' with
    | error report' => exact ⟨hwarned.record .., rfl⟩
    | ok value' => cases hresult
  | ok value =>
    cases result' with
    | error report' => cases hresult
    | ok value' =>
      cases hresult
      exact ⟨hwarned, rfl⟩

theorem setBranch (h : InStep f base exact r r') (branch : Branch) :
    InStep f base exact (r.setBranch branch) (r'.setBranch branch) := by
  rw [Run.setBranch, Run.setBranch, h.frames]
  cases r.frames with
  | nil => exact h
  | cons frame outer => exact h.setFrames ({ frame with branch } :: outer)

theorem select (h : InStep f base exact r r') (directive : Conditional) (taken : Bool) :
    InStep f base exact (r.select directive mark taken rest)
      (r'.select directive (f mark) taken (rest.map (.relocate f))) := by
  rw [Run.select, Run.select]
  split
  · exact (h.setBranch .active).judge directive _
  · exact h.judge directive _

theorem openFrame (h : InStep f base exact r r') (hsetup : u'.setup = u.setup)
    (opening : Opening) :
    InStep f base exact (r.openFrame u opening rest mark)
      (r'.openFrame u' opening (rest.map (.relocate f)) (f mark)) := by
  have push : ∀ branch : Branch, InStep f base exact
      { r with frames := { opening, branch, location := mark } :: r.frames }
      { r' with frames := { opening, branch, location := f mark } :: r'.frames } := by
    intro branch
    rw [h.frames]
    exact h.setFrames _
  simp only [Run.openFrame]
  rw [h.isLive, macroName_relocate]
  split
  · have htest := (push .awaiting).test hsetup rest mark
    cases opening with
    | ifTrue =>
      rw [htest.2]
      exact htest.1.select _ _
    | ifDefined | ifUndefined =>
      simp only
      cases macroName _ rest mark with
      | error fault => exact (push .awaiting).record ..
      | ok operand =>
        obtain ⟨name, extra⟩ := operand
        simp only [moved_ok, Prod.map_fst, Prod.map_snd, h.table.isDefined, Token.text_relocate]
        exact ((push .awaiting).notes (.warnExtra ..) (.warnExtra ..) fun _ => rfl).select _ _
  · exact (push .dead).judge _ _

theorem warnExtraInside (h : InStep f base exact r r') (directive : Conditional)
    (rest' : List Token) :
    InStep f base exact (r.warnExtraInside directive rest) (r'.warnExtraInside directive rest') :=
  h.notes (.warnExtraInside ..) (.warnExtraInside ..) fun _ => rfl

theorem otherwise (h : InStep f base exact r r') (frame : Frame) (outer : List Frame) :
    InStep f base exact (r.otherwise frame outer rest mark)
      (r'.otherwise (frame.relocate f) (outer.map (.relocate f)) (rest.map (.relocate f)) (f mark)) := by
  have enter : ∀ branch : Branch, InStep f base exact
      { r.warnExtraInside .otherwise rest with
        frames := { frame with branch, elseSeen := true } :: outer }
      { r'.warnExtraInside .otherwise (rest.map (.relocate f)) with
        frames := { frame.relocate f with branch, elseSeen := true } :: outer.map (.relocate f) } :=
    fun branch => (h.warnExtraInside .otherwise _).setFrames _
  simp only [Run.otherwise]
  cases hbranch : frame.branch with
  | dead =>
    rw [show (frame.relocate f).branch = .dead from hbranch]
    exact (enter .dead).judge _ _
  | awaiting =>
    rw [show (frame.relocate f).branch = .awaiting from hbranch]
    exact (enter .active).judge _ _
  | active =>
    rw [show (frame.relocate f).branch = .active from hbranch]
    exact (enter .done).judge _ _
  | done =>
    rw [show (frame.relocate f).branch = .done from hbranch]
    exact (enter .done).judge _ _

theorem elseIf (h : InStep f base exact r r') (hsetup : u'.setup = u.setup) (frame : Frame) :
    InStep f base exact (r.elseIf u frame rest mark)
      (r'.elseIf u' (frame.relocate f) (rest.map (.relocate f)) (f mark)) := by
  have htest := h.test hsetup rest mark
  simp only [Run.elseIf]
  rw [show (frame.relocate f).branch = frame.branch from rfl, htest.2]
  split
  · exact htest.1.select _ _
  · exact (h.setBranch .done).judge _ _
  · exact h.judge _ _
  · exact h.judge _ _

theorem conditional (h : InStep f base exact r r') (hsetup : u'.setup = u.setup)
    (directive : Conditional) :
    InStep f base exact (r.conditional u directive rest mark)
      (r'.conditional u' directive (rest.map (.relocate f)) (f mark)) := by
  unfold Run.conditional
  rw [h.frames]
  cases directive with
  | opening opening => exact h.openFrame hsetup opening
  | closing =>
    cases r.frames with
    | nil => exact h.record ..
    | cons frame outer => exact (h.warnExtraInside .closing _).setFrames outer
  | otherwise =>
    cases r.frames with
    | nil => exact h.record ..
    | cons frame outer =>
      simp only [List.map_cons]
      rw [show (frame.relocate f).elseSeen = frame.elseSeen from rfl]
      split
      · exact h.record ..
      · exact h.otherwise frame outer
  | elseIf =>
    cases r.frames with
    | nil => exact h.record ..
    | cons frame outer =>
      simp only [List.map_cons]
      rw [show (frame.relocate f).elseSeen = frame.elseSeen from rfl]
      split
      · exact h.record ..
      · exact h.elseIf hsetup frame

theorem directive (h : InStep f base exact r r') (hsetup : u'.setup = u.setup)
    (mark name : Token) :
    InStep f base exact (r.directive u mark name rest)
      (r'.directive u' (mark.relocate f) (name.relocate f) (rest.map (.relocate f))) := by
  simp only [Run.directive, Token.text_relocate, Token.location_relocate]
  rw [h.isLive]
  split
  · exact h.conditional hsetup _
  split
  · split
    · exact h.define
    · exact h.undefine
    · exact h.abort ..
    · exact h.notes (.warn ..) (.warn ..) fun _ => rfl
    · exact h.notes (.warn ..) (.warn ..) fun _ => rfl
    · exact h
    · exact h
    · exact h.record ..
  · exact h

/-! ## Lines -/

theorem takeLine (h : InStep f base exact r r') (hsetup : u'.setup = u.setup)
    (line : List Token) :
    InStep f base exact (r.takeLine u line) (r'.takeLine u' (line.map (.relocate f))) := by
  have hflush := h.flush hsetup
  rw [Run.takeLine, Run.takeLine, LineForm.of_relocate]
  cases LineForm.of line with
  | text =>
    simp only [LineForm.relocate]
    rw [h.isLive]
    split
    · exact { h with pending := by rw [h.pending, List.map_append, List.map_singleton] }
    · exact h
  | nothing => exact hflush
  | invalid mark name =>
    simp only [LineForm.relocate]
    rw [hflush.isLive]
    split
    · exact hflush.record ..
    · exact hflush
  | directive mark name rest => exact hflush.directive hsetup mark name

/-- The faults of a line are counted alike where both sources read a message, or both do not. -/
theorem noteFaults (h : InStep f base exact r r') {line : List Scanned}
    (hmessage : exact → ∀ t ∈ line,
      inMessage u' (f t.token.location) = inMessage u t.token.location) :
    InStep f base exact (r.noteFaults u line) (r'.noteFaults u' (line.map (.relocate f))) := by
  refine h.notes (.noteFaults ..) (.noteFaults ..) fun hexact => ?_
  rw [h.isLive, length_faultReports, length_faultReports, List.countP_map]
  split
  · refine List.countP_congr fun t ht => ?_
    rw [Function.comp_apply, Scanned.relocate, Token.location_relocate, hmessage hexact t ht]
  · rfl

theorem checkJournal (h : InStep f base exact r r') (hlimit : r'.journal.limit = r.journal.limit)
    (hroom : Room base exact r r') : InStep f base exact r.checkJournal r'.checkJournal := by
  obtain ⟨hfull, hfull'⟩ : r.journal.isFull = false ∧ r'.journal.isFull = false := by
    rcases hroom with ⟨hexact, hcount⟩ | hfull
    · have herrors := h.errors hexact
      simp only [Journal.isFull, hlimit, decide_eq_false_iff_not]
      omega
    · exact hfull
  rw [Run.checkJournal, Run.checkJournal, hfull, hfull']
  exact h

theorem takeLines (h : InStep f base exact r r') (hsetup : u'.setup = u.setup)
    (hlimit : r'.journal.limit = r.journal.limit) {lines : List (List Scanned)}
    (hmessage : exact → ∀ line ∈ lines, ∀ t ∈ line,
      inMessage u' (f t.token.location) = inMessage u t.token.location)
    (hroom : Room base exact (Run.takeLines u r lines)
      (Run.takeLines u' r' (lines.map (List.map (.relocate f))))) :
    InStep f base exact (Run.takeLines u r lines)
      (Run.takeLines u' r' (lines.map (List.map (.relocate f)))) := by
  induction lines generalizing r r' with
  | nil => exact h
  | cons line lines ih =>
    have hnoted := h.noteFaults fun hexact => hmessage hexact line List.mem_cons_self
    have htaken := hnoted.takeLine hsetup (line.map Scanned.token)
    have htokens : (line.map (Scanned.relocate f)).map Scanned.token =
        (line.map Scanned.token).map (.relocate f) := by
      rw [List.map_map, List.map_map]
      rfl
    rw [List.map_cons, Run.takeLines, Run.takeLines, hnoted.aborted, htokens] at hroom ⊢
    split at hroom
    · rename_i haborted
      rw [if_pos haborted, if_pos haborted]
      exact hnoted
    · rename_i haborted
      rw [if_neg haborted, if_neg haborted]
      have hextends := (Extends.noteFaults (u := u) r line).trans
        (.takeLine (u := u) _ (line.map Scanned.token))
      have hextends' := (Extends.noteFaults (u := u') r' (line.map (.relocate f))).trans
        (.takeLine (u := u') _ ((line.map Scanned.token).map (.relocate f)))
      have hlimit' := (hextends'.limit.trans hlimit).trans hextends.limit.symm
      refine ih (htaken.checkJournal hlimit' (hroom.of_extends ?_ ?_)) ?_
        (fun hexact line hline => hmessage hexact line (List.mem_cons_of_mem _ hline)) hroom
      · exact (Extends.checkJournal _).trans (.takeLines _ _)
      · exact (Extends.checkJournal _).trans (.takeLines _ _)
      · rw [(Extends.checkJournal _).limit, (Extends.checkJournal _).limit, hlimit']

/-! ## The end -/

theorem finish (h : InStep f base exact r r') (hsetup : u'.setup = u.setup) :
    InStep f base exact (r.finish u) (r'.finish u') := by
  have hflush := h.flush hsetup
  simp only [Run.finish]
  rw [h.aborted, hflush.frames]
  split
  · exact h
  cases (r.flush u).frames with
  | nil => exact hflush
  | cons frame outer => exact hflush.abort ..

end InStep

end Run

end CPreprocessor
