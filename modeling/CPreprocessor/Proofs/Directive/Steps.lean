import CPreprocessor.Proofs.Directive.FatalError

/-!
# The steps of a run

A run takes the lines of its source one after the other, till it is stopped. `Run.steps` are the lines
it takes, each with the state it is taken in, `Run.reached` is the state after the last of them, and
`Run.untaken` are the lines left over. Of these only the first is looked at, for its lexical faults
(`Run.takeLines_eq`).
-/

namespace CPreprocessor

namespace Run

/-- A line that a run takes, and the state it is taken in. -/
structure Step where
  before : Run
  line : List Scanned

namespace Step

def after (u : SourceUnit) (s : Step) : Run := take u s.before s.line

def form (s : Step) : LineForm := LineForm.of (s.line.map Scanned.token)

end Step

/-- The lines that a run takes, till it is stopped. -/
def steps (u : SourceUnit) (r : Run) : List (List Scanned) → List Step
  | [] => []
  | line :: lines => if r.aborted then [] else ⟨r, line⟩ :: steps u (take u r line) lines

/-- The state after the last line that a run takes. -/
def reached (u : SourceUnit) (r : Run) : List (List Scanned) → Run
  | [] => r
  | line :: lines => if r.aborted then r else reached u (take u r line) lines

/-- The lines that are left over when a run is stopped. -/
def untaken (u : SourceUnit) (r : Run) : List (List Scanned) → List (List Scanned)
  | [] => []
  | line :: lines => if r.aborted then line :: lines else untaken u (take u r line) lines

variable {u : SourceUnit} {r : Run} {lines : List (List Scanned)} {s : Step}

theorem map_line_steps (u : SourceUnit) (r : Run) (lines : List (List Scanned)) :
    (steps u r lines).map Step.line ++ untaken u r lines = lines := by
  induction lines generalizing r with
  | nil => rfl
  | cons line lines ih =>
    rw [steps, untaken]
    split
    · rfl
    · exact congrArg (line :: ·) (ih (take u r line))

/-- A run takes its steps, and then looks at one more line if it is stopped. -/
theorem takeLines_eq (u : SourceUnit) (r : Run) (lines : List (List Scanned)) :
    takeLines u r lines =
      if (reached u r lines).aborted then
        (reached u r lines).noteFaults u ((untaken u r lines).headD [])
      else reached u r lines := by
  induction lines generalizing r with
  | nil =>
    rw [reached, untaken]
    split
    · rename_i haborted
      exact takeLines_stopped haborted []
    · rfl
  | cons line lines ih =>
    cases haborted : r.aborted with
    | true =>
      rw [takeLines_stopped haborted, reached, untaken, if_pos haborted, if_pos haborted,
        if_pos haborted]
    | false =>
      rw [takeLines_cons haborted, ih, reached, untaken, haborted]
      rfl

/-- A step is taken where the lines above it have brought the run, which is not stopped there. -/
theorem exists_of_mem_steps (h : s ∈ steps u r lines) :
    ∃ above below, lines = above ++ s.line :: below ∧ takeLines u r above = s.before ∧
      s.before.aborted = false := by
  induction lines generalizing r with
  | nil => exact absurd h List.not_mem_nil
  | cons line lines ih =>
    rw [steps] at h
    split at h
    · exact absurd h List.not_mem_nil
    · rename_i haborted
      have haborted := Bool.eq_false_iff.mpr haborted
      rcases List.mem_cons.mp h with rfl | h
      · exact ⟨[], lines, rfl, rfl, haborted⟩
      · obtain ⟨above, below, rfl, hbefore, hnot⟩ := ih h
        exact ⟨line :: above, below, rfl, by rw [takeLines_cons haborted, hbefore], hnot⟩

/-- The journal is not full where a step is taken, unless it is the first one. -/
theorem isFull_of_mem_steps (h : s ∈ steps u r lines) :
    s.before = r ∨ s.before.journal.isFull = false := by
  induction lines generalizing r with
  | nil => exact absurd h List.not_mem_nil
  | cons line lines ih =>
    rw [steps] at h
    split at h
    · exact absurd h List.not_mem_nil
    · rcases List.mem_cons.mp h with rfl | hs
      · exact .inl rfl
      · obtain ⟨-, -, -, -, haborted⟩ := exists_of_mem_steps hs
        rcases ih hs with hbefore | hfull
        · rw [hbefore] at haborted ⊢
          exact .inr (isFull_of_take u r line haborted)
        · exact .inr hfull

/-- The last step leads to the state that is reached. -/
theorem reached_eq (u : SourceUnit) (r : Run) (lines : List (List Scanned)) :
    reached u r lines = ((steps u r lines).getLast?.map (Step.after u)).getD r := by
  induction lines generalizing r with
  | nil => rfl
  | cons line lines ih =>
    rw [reached, steps]
    split
    · rfl
    · rw [ih (take u r line), List.getLast?_cons]
      cases (steps u (take u r line) lines).getLast? with
      | none => rfl
      | some s => rfl

/-- What steps hand on: if each puts something behind a list that the state of a run holds and takes
something away before it, the run does so with all that its steps put there and take. -/
theorem hand_on {α : Type} {f : Run → List α} {put taken : Step → List α}
    (h : ∀ s : Step, f s.before ++ put s = taken s ++ f (s.after u)) (r : Run)
    (lines : List (List Scanned)) :
    f r ++ (steps u r lines).flatMap put =
      (steps u r lines).flatMap taken ++ f (reached u r lines) := by
  induction lines generalizing r with
  | nil => exact List.append_nil _
  | cons line lines ih =>
    rw [reached, steps]
    split
    · exact List.append_nil _
    · rw [List.flatMap_cons, List.flatMap_cons, ← List.append_assoc, h ⟨r, line⟩, List.append_assoc,
        List.append_assoc, ← ih]
      rfl

/-- What a step adds to a list that the state of a run holds, all steps add one after the other. -/
theorem append_steps {α : Type} {f : Run → List α} {put : Step → List α}
    (h : ∀ s : Step, f (s.after u) = f s.before ++ put s) (r : Run) (lines : List (List Scanned)) :
    f (reached u r lines) = f r ++ (steps u r lines).flatMap put := by
  have hnone : (steps u r lines).flatMap (fun _ => ([] : List α)) = [] :=
    List.flatMap_eq_nil_iff.mpr fun _ _ => rfl
  have hput : ∀ s : Step, f s.before ++ put s = [] ++ f (s.after u) := fun s => (h s).symm
  rw [hand_on hput r lines, hnone, List.nil_append]

/-- A run before its first line. -/
def initial (u : SourceUnit) (table : Table) : Run :=
  { table, journal := { limit := u.setup.maxErrors } }

end Run

namespace SourceUnit

/-- The lines of a source that a run from a table takes. -/
def steps (u : SourceUnit) (table : Table) : List Run.Step :=
  Run.steps u (.initial u table) u.source.logicalLines

/-- The state after the last of them. -/
def reached (u : SourceUnit) (table : Table) : Run :=
  Run.reached u (.initial u table) u.source.logicalLines

/-- The line that a run is stopped at. There is none if it gets to the end of its source. -/
def stop? (u : SourceUnit) (table : Table) : Option Run.Step :=
  if (u.reached table).aborted then (u.steps table).getLast? else none

/-- The line that a run looks at after it is stopped. It is empty if there is none. -/
def nextLine (u : SourceUnit) (table : Table) : List Scanned :=
  (Run.untaken u (.initial u table) u.source.logicalLines).headD []

end SourceUnit

namespace Run

variable {u : SourceUnit} {table : Table}

/-- A run that is stopped before the end of its source looks at the next line, and one that is not
expands the text that waits and may find a conditional open. -/
theorem start_eq (u : SourceUnit) (table : Table) :
    start u table =
      if (u.reached table).aborted then (u.reached table).noteFaults u (u.nextLine table)
      else (u.reached table).finish u := by
  have htake := takeLines_eq u (initial u table) u.source.logicalLines
  have hstart : start u table = (takeLines u (initial u table) u.source.logicalLines).finish u := rfl
  rw [hstart, htake]
  change Run.finish (if (u.reached table).aborted then _ else u.reached table) u = _
  cases haborted : (u.reached table).aborted with
  | true => exact finish_of_aborted ((aborted_noteFaults _).trans haborted) u
  | false => rfl

theorem stop?_cases (u : SourceUnit) (table : Table) :
    (∃ front s, u.stop? table = some s ∧ (u.reached table).aborted = true ∧
        u.steps table = front ++ [s] ∧ u.reached table = s.after u) ∨
      u.stop? table = none ∧ (u.reached table).aborted = false := by
  cases haborted : (u.reached table).aborted with
  | false => exact .inr ⟨by rw [SourceUnit.stop?, haborted, if_neg Bool.false_ne_true], rfl⟩
  | true =>
    have hreached : u.reached table = ((u.steps table).getLast?.map (Step.after u)).getD _ :=
      reached_eq u (initial u table) u.source.logicalLines
    cases hlast : (u.steps table).getLast? with
    | none =>
      rw [hreached, hlast] at haborted
      cases haborted
    | some s =>
      refine .inl ⟨(u.steps table).dropLast, s, ?_, rfl,
        (List.dropLast_append_getLast? s hlast).symm, ?_⟩
      · rw [SourceUnit.stop?, haborted, if_pos rfl, hlast]
      · rw [hreached, hlast]
        rfl

theorem prefix_map_line (u : SourceUnit) (table : Table) :
    (u.steps table).map Step.line <+: u.source.logicalLines :=
  ⟨_, map_line_steps u (initial u table) u.source.logicalLines⟩

/-- What a step enters into the journal stays there. -/
theorem prefix_entries {s : Step} (h : s ∈ u.steps table) :
    (s.after u).journal.entries <+: (start u table).journal.entries := by
  obtain ⟨above, below, hlines, hbefore, haborted⟩ := exists_of_mem_steps h
  have htake : takeLines u (initial u table) u.source.logicalLines = takeLines u (s.after u) below := by
    rw [hlines, takeLines_append (by rw [hbefore, haborted]), hbefore, takeLines_cons haborted]
    rfl
  have hstart : start u table = (takeLines u (s.after u) below).finish u :=
    congrArg (finish · u) htake
  rw [hstart]
  exact ((Extends.takeLines _ below).trans (Extends.finish _)).entries

end Run

end CPreprocessor
