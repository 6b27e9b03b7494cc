import CPreprocessor.Directive.Run

/-!
# The journal of a run

A run only adds to its journal, and it is stopped only by a fatal error or by a full journal
(`Run.start_aborted`).
-/

namespace CPreprocessor

theorem Journal.errorCount_le {j j' : Journal} (h : j.entries <+: j'.entries) :
    j.errorCount ≤ j'.errorCount :=
  (h.filter _).length_le

theorem Journal.isFull_of_le {j j' : Journal} (h : j.isFull = true) (hlimit : j'.limit = j.limit)
    (hcount : j.errorCount ≤ j'.errorCount) : j'.isFull = true := by
  simp only [isFull, decide_eq_true_eq] at h ⊢
  omega

namespace Run

/-- Whether a run was stopped for a reason. -/
def IsStopped (r : Run) : Prop :=
  (∃ d ∈ r.journal.entries, d.isFatal = true) ∨ r.journal.isFull = true

/-- What a step of a run does to its journal. -/
structure Extends (r r' : Run) : Prop where
  entries : r.journal.entries <+: r'.journal.entries
  limit : r'.journal.limit = r.journal.limit
  aborted : r'.aborted = true → r.aborted = true ∨ r'.IsStopped

variable {u : SourceUnit} {r r₁ r₂ r₃ : Run}

theorem IsStopped.of_extends (h : r₁.IsStopped) (hr : Extends r₁ r₂) : r₂.IsStopped := by
  rcases h with ⟨d, hd, hfatal⟩ | hfull
  · exact .inl ⟨d, hr.entries.subset hd, hfatal⟩
  · exact .inr (Journal.isFull_of_le hfull hr.limit (Journal.errorCount_le hr.entries))

namespace Extends

theorem of_eq (hjournal : r₂.journal = r₁.journal) (haborted : r₂.aborted = r₁.aborted) :
    Extends r₁ r₂ where
  entries := hjournal ▸ List.prefix_rfl
  limit := by rw [hjournal]
  aborted h := .inl (haborted ▸ h)

theorem refl (r : Run) : Extends r r := of_eq rfl rfl

theorem trans (h₁ : Extends r₁ r₂) (h₂ : Extends r₂ r₃) : Extends r₁ r₃ where
  entries := h₁.entries.trans h₂.entries
  limit := h₂.limit.trans h₁.limit
  aborted h := by
    rcases h₂.aborted h with h | h
    · exact (h₁.aborted h).imp_right (·.of_extends h₂)
    · exact .inr h

theorem foldl {α : Type} {step : Run → α → Run} (h : ∀ r a, Extends r (step r a)) (as : List α)
    (r : Run) : Extends r (as.foldl step r) := by
  induction as generalizing r with
  | nil => exact refl r
  | cons a as ih => exact (h r a).trans (ih _)

theorem record (r : Run) (report : Report) : Extends r (r.record report) where
  entries := List.prefix_append ..
  limit := rfl
  aborted h := .inl h

theorem warn (r : Run) (message : String) (location : Option Location) :
    Extends r (r.warn message location) where
  entries := List.prefix_append ..
  limit := rfl
  aborted h := .inl h

theorem abort (r : Run) (report : Report) : Extends r (r.abort report) where
  entries := List.prefix_append ..
  limit := rfl
  aborted _ := .inr (.inl ⟨.error report true, by simp [Run.abort, Journal.error, Journal.add], rfl⟩)

theorem warnExtra (r : Run) (directive : String) (extra : List Token) :
    Extends r (r.warnExtra directive extra) := by
  cases extra with
  | nil => exact refl r
  | cons t ts => exact warn ..

theorem expandLine (r : Run) (line : List Token) : Extends r (Run.expandLine u r line) := by
  rw [Run.expandLine]
  split
  · exact of_eq rfl rfl
  · exact record ..

theorem flush (r : Run) : Extends r (r.flush u) := by
  have h : Extends r { r with pending := [] } := of_eq rfl rfl
  simp only [Run.flush]
  split
  · exact h
  split
  · exact h.trans (of_eq rfl rfl)
  · exact h.trans (foldl expandLine _ _)

theorem define (r : Run) (rest : List Token) (mark : Location) : Extends r (r.define rest mark) := by
  have set : ∀ table, Extends r { r with table } := fun table => of_eq rfl rfl
  rw [Run.define]
  split
  · exact record ..
  split
  · exact warn ..
  · simp only
    split
    · exact set _
    · exact (set _).trans (warn ..)

theorem undefine (r : Run) (rest : List Token) (mark : Location) :
    Extends r (r.undefine u rest mark) := by
  rw [Run.undefine]
  split
  · exact record ..
  · simp only
    split
    · exact ((warnExtra ..).trans (warn ..)).trans (of_eq rfl rfl)
    · exact (warnExtra ..).trans (of_eq rfl rfl)

theorem judge (r : Run) (directive : Conditional) (mark : Location) (taken : Option Bool)
    (rest : List Token) : Extends r (r.judge directive mark taken rest) := of_eq rfl rfl

theorem setBranch (r : Run) (branch : Branch) : Extends r (r.setBranch branch) := by
  rw [Run.setBranch]
  split
  · exact refl r
  · exact of_eq rfl rfl

theorem test (r : Run) (rest : List Token) (mark : Location) :
    Extends r (r.test u rest mark).1 := by
  have h : Extends r (if u.setup.warnUndefined then
      (u.evaluate r.table rest mark).2.foldl (fun r t =>
        r.warn ("'" ++ t.text ++ "' is not defined, evaluates to 0") t.location) r else r) := by
    split
    · exact foldl (fun r t => warn ..) _ _
    · exact refl r
  simp only [Run.test]
  split
  · exact h
  · exact h.trans (record ..)

theorem select (r : Run) (directive : Conditional) (mark : Location) (taken : Bool)
    (rest : List Token) : Extends r (r.select directive mark taken rest) := by
  rw [Run.select]
  split
  · exact (setBranch ..).trans (judge ..)
  · exact judge ..

theorem openFrame (r : Run) (opening : Opening) (rest : List Token) (mark : Location) :
    Extends r (r.openFrame u opening rest mark) := by
  have push : ∀ frames, Extends r { r with frames } := fun frames => of_eq rfl rfl
  simp only [Run.openFrame]
  split
  · split
    · exact (push _).trans ((test ..).trans (select ..))
    all_goals
      split
      · exact (push _).trans (record ..)
      · exact (push _).trans ((warnExtra ..).trans (select ..))
  · exact (push _).trans (judge ..)

theorem warnExtraInside (r : Run) (directive : Conditional) (rest : List Token) :
    Extends r (r.warnExtraInside directive rest) := by
  rw [Run.warnExtraInside]
  split
  · exact warnExtra ..
  · exact refl r

theorem otherwise (r : Run) (frame : Frame) (outer : List Frame) (rest : List Token)
    (mark : Location) : Extends r (r.otherwise frame outer rest mark) := by
  have h := warnExtraInside r .otherwise rest
  simp only [Run.otherwise]
  split
  · exact h.trans (of_eq rfl rfl)
  · exact h.trans (of_eq rfl rfl)
  · exact h.trans (of_eq rfl rfl)
  · exact h.trans (of_eq rfl rfl)

theorem elseIf (r : Run) (frame : Frame) (rest : List Token) (mark : Location) :
    Extends r (r.elseIf u frame rest mark) := by
  simp only [Run.elseIf]
  split
  · exact (test ..).trans (select ..)
  · exact (setBranch ..).trans (judge ..)
  · exact judge ..
  · exact judge ..

theorem conditional (r : Run) (directive : Conditional) (rest : List Token) (mark : Location) :
    Extends r (r.conditional u directive rest mark) := by
  unfold Run.conditional
  split
  · exact openFrame ..
  · exact record ..
  · exact (warnExtraInside ..).trans (of_eq rfl rfl)
  · exact record ..
  · exact record ..
  · split
    · exact record ..
    · exact otherwise ..
  · split
    · exact record ..
    · exact elseIf ..

theorem directive (r : Run) (mark name : Token) (rest : List Token) :
    Extends r (r.directive u mark name rest) := by
  simp only [Run.directive]
  split
  · exact conditional ..
  split
  · split
    · exact define ..
    · exact undefine ..
    · exact abort ..
    · exact warn ..
    · exact warn ..
    · exact refl r
    · exact refl r
    · exact record ..
  · exact refl r

theorem takeLine (r : Run) (line : List Token) : Extends r (r.takeLine u line) := by
  rw [Run.takeLine]
  split
  · split
    · exact of_eq rfl rfl
    · exact refl r
  · exact flush r
  · simp only
    split
    · exact (flush r).trans (record ..)
    · exact flush r
  · exact (flush r).trans (directive ..)

theorem noteFaults (r : Run) (line : List Scanned) : Extends r (r.noteFaults u line) := by
  rw [Run.noteFaults]
  split
  · exact foldl record _ _
  · exact refl r

theorem checkJournal (r : Run) : Extends r r.checkJournal := by
  rw [Run.checkJournal]
  split
  · rename_i hfull
    exact ⟨List.prefix_rfl, rfl, fun _ => .inr (.inr hfull)⟩
  · exact refl r

theorem takeLines (r : Run) (lines : List (List Scanned)) :
    Extends r (Run.takeLines u r lines) := by
  induction lines generalizing r with
  | nil => exact refl r
  | cons line lines ih =>
    rw [Run.takeLines]
    split
    · exact noteFaults ..
    · exact (noteFaults ..).trans ((takeLine ..).trans ((checkJournal _).trans (ih _)))

theorem finish (r : Run) : Extends r (r.finish u) := by
  simp only [Run.finish]
  split
  · exact refl r
  split
  · exact flush r
  · exact (flush r).trans (abort ..)

end Extends

/-- A run is stopped only by a fatal error or by a full journal. -/
theorem start_aborted {table : Table} (h : (start u table).aborted = true) :
    (start u table).IsStopped := by
  have hextends := (Extends.takeLines (u := u)
    { table, journal := { limit := u.setup.maxErrors } } u.source.logicalLines).trans
    (Extends.finish (u := u) _)
  exact (hextends.aborted h).resolve_left Bool.false_ne_true

end Run

end CPreprocessor
