import CPreprocessor.Proofs.Directive.Entries
import CPreprocessor.Proofs.Directive.MessageLine
import CPreprocessor.Proofs.Expansion.Machine

/-!
# The limit on errors

A run looks at its limit once for each line, and not at all after the last one. It takes a line only if
there is room for an error, but then more than one may be entered at once: a fault and what the
directive tells, errors for all lines that wait, and the fault of the next line. So it may enter more
errors than its limit allows, and it may end as if there were fewer (`Run.keepsLimit_iff`).
-/

namespace CPreprocessor

/-- Whether a diagnostic is an error after which a run could go on. -/
def Diagnostic.isOrdinary (d : Diagnostic) : Bool := d.isError && !d.isFatal

/-- The number of errors in a journal, without the one that ended the run. -/
def Journal.ordinaryCount (j : Journal) : Nat := j.entries.countP Diagnostic.isOrdinary

namespace SourceUnit

/-- The state in which a run looks at its limit for the last time and goes on. -/
def checked (u : SourceUnit) (table : Table) : Run :=
  match u.stop? table with
  | some s => s.before
  | none => u.reached table

/-- What a run enters after that. -/
def unchecked (u : SourceUnit) (table : Table) : List Diagnostic :=
  match u.stop? table with
  | some s => s.entered u ++ (u.reached table).faults u (u.nextLine table)
  | none =>
    Run.failures u (u.reached table).table (u.reached table).pending ++
      Run.unterminated u (u.reached table).frames

/-- Whether a run keeps to its limit: besides an error that ends it, it enters no more errors than that,
and it is stopped if it enters as many. -/
def KeepsLimit (u : SourceUnit) (table : Table) : Prop :=
  ((Run.start u table).journal.ordinaryCount : Int) ≤ u.setup.maxErrors ∧
    (u.setup.maxErrors ≤ (Run.start u table).journal.errorCount →
      (Run.start u table).aborted = true)

end SourceUnit

theorem Journal.errorCount_eq (j : Journal) : j.errorCount = j.entries.countP Diagnostic.isError :=
  List.countP_eq_length_filter.symm

theorem Journal.ordinaryCount_le (j : Journal) : j.ordinaryCount ≤ j.errorCount := by
  rw [errorCount_eq]
  exact List.countP_mono_left fun d _ h => (Bool.and_eq_true_iff.mp h).1

namespace Run

variable {u : SourceUnit} {table : Table} {r : Run} {line : List Scanned} {s : Step}

/-! ## What is entered at once -/

/-- A line has one lexical fault at most. -/
theorem length_faults_le (r : Run) (h : line ∈ u.source.logicalLines) :
    (r.faults u line).length ≤ 1 := by
  obtain ⟨l, rfl⟩ := Source.mem_logicalLines_iff.mp h
  have hreports : (faultReports u l.tokens).length ≤ 1 := by
    by_cases hfault : ∃ t ∈ l.tokens, t.fault.isSome = true
    · obtain ⟨t, ht, hfault⟩ := hfault
      obtain ⟨front, back, hl⟩ := List.append_of_mem ht
      obtain ⟨cause, hcause⟩ := Option.isSome_iff_exists.mp hfault
      rw [faultReports_eq hl hcause]
      split
      · exact Nat.zero_le 1
      · exact Nat.le_refl 1
    · rw [faultReports_eq_nil_iff.mpr fun t ht hsome => absurd ⟨t, ht, hsome⟩ hfault]
      exact Nat.zero_le 1
  rw [faults]
  split
  · rwa [List.length_map]
  · exact Nat.zero_le 1

theorem countP_ordinary_faults (u : SourceUnit) (r : Run) (line : List Scanned) :
    (r.faults u line).countP Diagnostic.isOrdinary = (r.faults u line).length := by
  refine List.countP_eq_length.mpr fun d hd => ?_
  unfold faults at hd
  split at hd
  · obtain ⟨report, -, rfl⟩ := List.mem_map.mp hd
    rfl
  · exact absurd hd List.not_mem_nil

/-! ## Room -/

theorem limit_of_mem_steps (h : s ∈ u.steps table) :
    s.before.journal.limit = u.setup.maxErrors := by
  obtain ⟨above, below, -, hbefore, -⟩ := exists_of_mem_steps h
  rw [← hbefore]
  exact (Extends.takeLines (initial u table) above).limit

/-- A line is taken only if there is room for an error. -/
theorem errorCount_lt_of_mem_steps (hlimit : 1 ≤ u.setup.maxErrors) (h : s ∈ u.steps table) :
    (s.before.journal.errorCount : Int) < u.setup.maxErrors := by
  rcases isFull_of_mem_steps h with hinitial | hfull
  · rw [hinitial]
    exact hlimit
  · rw [Journal.isFull, limit_of_mem_steps h] at hfull
    exact Int.not_le.mp (of_decide_eq_false hfull)

theorem errorCount_reached_lt (hlimit : 1 ≤ u.setup.maxErrors)
    (h : (u.reached table).aborted = false) :
    ((u.reached table).journal.errorCount : Int) < u.setup.maxErrors := by
  have hreached : u.reached table = ((u.steps table).getLast?.map (Step.after u)).getD _ :=
    reached_eq u (initial u table) u.source.logicalLines
  cases hlast : (u.steps table).getLast? with
  | none =>
    rw [hreached, hlast]
    exact hlimit
  | some s =>
    have hafter : u.reached table = s.after u := by rw [hreached, hlast]; rfl
    rw [hafter] at h ⊢
    have hfull := isFull_of_take u s.before s.line h
    have hsame := s.limit_after u
    rw [limit_of_mem_steps (List.mem_of_getLast? hlast)] at hsame
    rw [← hsame]
    exact Int.not_le.mp (of_decide_eq_false hfull)

/-! ## The end of a run -/

/-- What is entered at once when a run is stopped: the fault of the line that it is stopped at, the
errors of the text before it, what its directive tells, and the fault of the next line. -/
structure StopsWith (u : SourceUnit) (table : Table) (s : Step) (told : List Diagnostic) : Prop where
  unchecked : u.unchecked table =
    s.faults u ++ s.failures u ++ told ++ (u.reached table).faults u (u.nextLine table)
  fault_le : (s.faults u).length ≤ 1
  told_le : told.countP Diagnostic.isError ≤ 1
  told_of_text : s.form = .text → told = []
  next_le : ((u.reached table).faults u (u.nextLine table)).length ≤ 1

theorem exists_stopsWith (h : u.stop? table = some s) : ∃ told, StopsWith u table s told := by
  obtain ⟨front, s', hstop, haborted, hsplit, hreached⟩ | ⟨hstop, -⟩ := stop?_cases u table
  swap
  · rw [h] at hstop
    cases hstop
  obtain rfl := Option.some.inj (h.symm.trans hstop)
  obtain ⟨told, hentered, htold, -, htext⟩ := s.exists_entered u
  have hmem : s ∈ u.steps table := by
    rw [hsplit]
    exact List.mem_append_right _ (List.mem_singleton_self s)
  refine ⟨told, ?_, ?_, htold, htext, ?_⟩
  · simp only [SourceUnit.unchecked, hstop, hentered]
  · exact length_faults_le s.before ((prefix_map_line u table).subset (List.mem_map_of_mem hmem))
  · rw [SourceUnit.nextLine]
    cases hrest : untaken u (initial u table) u.source.logicalLines with
    | nil =>
      rw [List.headD_nil, faults, faultReports]
      split
      · exact Nat.zero_le 1
      · exact Nat.zero_le 1
    | cons line lines =>
      refine length_faults_le _ ?_
      rw [← map_line_steps u (initial u table) u.source.logicalLines, hrest]
      exact List.mem_append_right _ List.mem_cons_self

theorem StopsWith.count_le {told : List Diagnostic} (h : StopsWith u table s told) :
    (u.unchecked table).countP Diagnostic.isOrdinary ≤ 3 + (s.failures u).length := by
  have htold : told.countP Diagnostic.isOrdinary ≤ told.countP Diagnostic.isError :=
    List.countP_mono_left fun d _ h => (Bool.and_eq_true_iff.mp h).1
  have hfailures : (s.failures u).countP Diagnostic.isOrdinary ≤ (s.failures u).length :=
    List.countP_le_length
  have hfault := countP_ordinary_faults u s.before s.line
  have hnext := countP_ordinary_faults u (u.reached table) (u.nextLine table)
  obtain ⟨hunchecked, hone, hthree, -, htwo⟩ := h
  rw [hunchecked, List.countP_append, List.countP_append, List.countP_append, hnext, Step.faults,
    hfault]
  rw [Step.faults] at hone
  omega

/-- A run enters what it enters after its last look at the limit, besides what it had entered before. -/
theorem start_unchecked (u : SourceUnit) (table : Table) :
    (start u table).journal.entries =
        (u.checked table).journal.entries ++ u.unchecked table ∧
      ((start u table).aborted = false ↔
        u.stop? table = none ∧ (u.reached table).frames = []) := by
  rw [start_eq]
  obtain ⟨front, s, hstop, haborted, -, hreached⟩ | ⟨hstop, haborted⟩ := stop?_cases u table
  · rw [if_pos haborted, entries_noteFaults_eq, aborted_noteFaults, haborted, SourceUnit.checked,
      SourceUnit.unchecked, hstop, ← List.append_assoc, ← Step.entries_after, hreached]
    exact ⟨rfl, iff_of_false nofun nofun⟩
  · obtain ⟨hentries, hfinish⟩ := entries_finish u haborted
    rw [if_neg (by rw [haborted]; exact Bool.false_ne_true), hentries, hfinish, SourceUnit.checked,
      SourceUnit.unchecked, hstop]
    refine ⟨rfl, ?_⟩
    rw [Bool.not_eq_false', List.isEmpty_iff, and_iff_right rfl]

/-- A run takes a line, and goes on at the end of its source, only with room for an error; but all that it
enters after that goes unchecked. So it keeps to its limit exactly if that fits, and if it is less than
the room there where no conditional is left open at the end of the source. It fits always if it is one
error at most. -/
theorem keepsLimit_iff (u : SourceUnit) (table : Table) (hlimit : 1 ≤ u.setup.maxErrors) :
    let r := start u table
    let checked := (u.checked table).journal
    let unchecked := u.unchecked table
    (∀ s ∈ u.steps table, (s.before.journal.errorCount : Int) < u.setup.maxErrors) ∧
      (checked.errorCount : Int) < u.setup.maxErrors ∧
      r.journal.entries = checked.entries ++ unchecked ∧
      (∀ s, u.stop? table = some s → (∃ told, StopsWith u table s told) ∧
        (r.journal.ordinaryCount : Int) ≤ u.setup.maxErrors + 2 + (s.failures u).length) ∧
      (r.aborted = false ↔ u.stop? table = none ∧ (u.reached table).frames = []) ∧
      (unchecked.countP Diagnostic.isOrdinary ≤ 1 →
        (r.journal.ordinaryCount : Int) ≤ u.setup.maxErrors) ∧
      (u.KeepsLimit table ↔
        (checked.ordinaryCount + unchecked.countP Diagnostic.isOrdinary : Int) ≤
            u.setup.maxErrors ∧
          (u.stop? table = none → (u.reached table).frames = [] →
            (checked.errorCount + unchecked.countP Diagnostic.isError : Int) <
              u.setup.maxErrors)) := by
  intro r checked unchecked
  obtain ⟨hentries, haborted⟩ := start_unchecked u table
  have hroom : (checked.errorCount : Int) < u.setup.maxErrors := by
    obtain ⟨front, s, hstop, -, hsplit, -⟩ | ⟨hstop, hend⟩ := stop?_cases u table
    · have hmem : s ∈ u.steps table := by
        rw [hsplit]
        exact List.mem_append_right _ (List.mem_singleton_self s)
      have hlt := errorCount_lt_of_mem_steps hlimit hmem
      simp only [checked, SourceUnit.checked, hstop]
      exact hlt
    · have hlt := errorCount_reached_lt hlimit hend
      simp only [checked, SourceUnit.checked, hstop]
      exact hlt
  have hordinary : r.journal.ordinaryCount =
      checked.ordinaryCount + unchecked.countP Diagnostic.isOrdinary := by
    rw [Journal.ordinaryCount, hentries, List.countP_append, Journal.ordinaryCount]
  have herrors : r.journal.errorCount =
      checked.errorCount + unchecked.countP Diagnostic.isError := by
    rw [Journal.errorCount_eq, hentries, List.countP_append, Journal.errorCount_eq]
  have hle := checked.ordinaryCount_le
  refine ⟨fun s hs => errorCount_lt_of_mem_steps hlimit hs, hroom, hentries, fun s hs => ?_, haborted,
    fun hone => ?_, ?_⟩
  · obtain ⟨told, hstops⟩ := exists_stopsWith hs
    have hcount : unchecked.countP Diagnostic.isOrdinary ≤ 3 + (s.failures u).length :=
      hstops.count_le
    exact ⟨⟨told, hstops⟩, by omega⟩
  · omega
  · rw [SourceUnit.KeepsLimit, hordinary, herrors, Int.natCast_add, Int.natCast_add]
    refine and_congr_right fun _ => ?_
    rw [← not_lt, ← Bool.not_eq_false, haborted, not_imp_not, and_imp]

/-- One fault fits a limit of one. -/
theorem keepsLimit_fault :
    let u : SourceUnit := { source := { text := "b '\n" }, setup := { maxErrors := 1 } }
    1 ≤ u.setup.maxErrors ∧ (start u ∅).journal.entries.map Diagnostic.message =
      ["unterminated character constant"] ∧ u.KeepsLimit ∅ := by
  intro u
  have hlimit : 1 ≤ u.setup.maxErrors := by decide
  obtain ⟨-, -, -, -, haborted, -, hiff⟩ := keepsLimit_iff u ∅ hlimit
  have hstopped : (start u ∅).aborted = true := by decide +kernel
  refine ⟨hlimit, by decide +kernel, hiff.mpr ⟨by decide +kernel, fun hstop hframes => ?_⟩⟩
  rw [haborted.mpr ⟨hstop, hframes⟩] at hstopped
  cases hstopped

/-- A source with two lines that cannot be expanded, and a limit of one error. -/
def crowded : SourceUnit :=
  { source := { text := "#define f(x) x\nf(;,;)\nf(;,;)\n" }, setup := { maxErrors := 1 } }

/-- The macro that `#define f(x) x` in the first line defines. -/
def crowdedTable : Table :=
  Table.define ∅
    { name := "f", shape := .function ["x"] false,
      replacement := [{ kind := .identifier, text := "x", location := ⟨"<input>", 1, 14⟩ }],
      location := some ⟨"<input>", 1, 9⟩ }

/-- The line `f(;,;)` where it stands. -/
def crowdedLine (n : Int) : List Token :=
  [{ kind := .identifier, text := "f", location := ⟨"<input>", n, 1⟩ },
    { kind := .punctuator, text := "(", location := ⟨"<input>", n, 2⟩ },
    { kind := .punctuator, text := ";", location := ⟨"<input>", n, 3⟩ },
    { kind := .punctuator, text := ",", location := ⟨"<input>", n, 4⟩ },
    { kind := .punctuator, text := ";", location := ⟨"<input>", n, 5⟩ },
    { kind := .punctuator, text := ")", location := ⟨"<input>", n, 6⟩ },
    { kind := .newline, text := "\n", location := ⟨"<input>", n, 7⟩ }]

theorem expand_crowdedLine (n : Int) (more : List Token) :
    (crowded.expander crowdedTable).expand (crowdedLine n ++ more) =
      .error ⟨"f", .argumentCount 1 2 false, some ⟨"<input>", n, 1⟩⟩ := by
  have hhalted : (Machine.step (crowded.expander crowdedTable))^[1]
      (Machine.start (crowdedLine n ++ more)) =
        .halted (.error ⟨"f", .argumentCount 1 2 false, some ⟨"<input>", n, 1⟩⟩) := by cbv
  exact Machine.expand_of_halted 1 hhalted

theorem failures_crowded :
    failures crowded crowdedTable [crowdedLine 2, crowdedLine 3] =
      [2, 3].map fun n => .error (ExpansionError.reportIn
        ⟨"f", .argumentCount 1 2 false, some ⟨"<input>", n, 1⟩⟩ crowded.listing) false := by
  have htogether : (crowded.expander crowdedTable).expand [crowdedLine 2, crowdedLine 3].flatten =
      .error ⟨"f", .argumentCount 1 2 false, some ⟨"<input>", 2, 1⟩⟩ :=
    expand_crowdedLine 2 (crowdedLine 3 ++ [])
  have hline : ∀ n, lineError? crowded crowdedTable (crowdedLine n) =
      some (.error (ExpansionError.reportIn
        ⟨"f", .argumentCount 1 2 false, some ⟨"<input>", n, 1⟩⟩ crowded.listing) false) := by
    intro n
    have halone := expand_crowdedLine n []
    rw [List.append_nil] at halone
    rw [lineError?, halone]
  rw [failures, htogether]
  simp only [List.filterMap_cons, hline, List.filterMap_nil, List.map_cons, List.map_nil]

/-- The two lines wait for the end of the source, where they give two errors, and the run is not
stopped. -/
theorem not_keepsLimit :
    ¬ crowded.KeepsLimit ∅ ∧ (start crowded ∅).journal.ordinaryCount = 2 ∧
      (start crowded ∅).aborted = false := by
  have hend : (crowded.reached ∅).aborted = false := by decide +kernel
  have hframes : (crowded.reached ∅).frames = [] := by decide +kernel
  have hpending : (crowded.reached ∅).pending = [crowdedLine 2, crowdedLine 3] := by decide +kernel
  have hentries : (crowded.reached ∅).journal.entries = [] := by decide +kernel
  have htable : (crowded.reached ∅).table = crowdedTable := by
    have hext : ∀ t t' : Table, t.definitions = t'.definitions → t.history = t'.history → t = t' := by
      rintro ⟨_, _, _⟩ ⟨_, _, _⟩ rfl rfl
      rfl
    exact hext _ _ (by decide +kernel) (by decide +kernel)
  obtain ⟨hfinish, haborted⟩ := entries_finish crowded hend
  have hstart : start crowded ∅ = (crowded.reached ∅).finish crowded := by
    rw [start_eq, if_neg (by rw [hend]; exact Bool.false_ne_true)]
  rw [hframes] at haborted
  rw [htable, hpending, hframes, hentries, failures_crowded] at hfinish
  have hcount : (start crowded ∅).journal.ordinaryCount = 2 := by
    rw [Journal.ordinaryCount, hstart, hfinish]
    rfl
  refine ⟨fun h => ?_, hcount, by rw [hstart, haborted]; rfl⟩
  have hle := h.1
  rw [hcount] at hle
  exact absurd hle (by decide)

end Run

end CPreprocessor
