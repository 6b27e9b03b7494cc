import CPreprocessor.Proofs.Directive.Continuation
import CPreprocessor.Proofs.Directive.Output

/-!
# Sources that share a table

A source that ends with a directive leaves nothing to the lines after it but its macros. So a run over
two texts, one after the other, comes to the same as a run over the first and a new one over the second
with the table that was left (`Run.start_append`).
-/

namespace CPreprocessor

/-! ## Lines further down -/

/-- The place so many lines further down. -/
def Location.down (n : Int) (l : Location) : Location := { l with line := l.line + n }

namespace Place

def down (n : Int) (p : Place) : Place := { p with line := p.line + n }

theorem nextLine_down (n : Int) (p : Place) : (p.down n).nextLine = p.nextLine.down n := by
  simp only [nextLine, down, Place.mk.injEq, and_true]
  omega

theorem after_down (n : Int) (p : Place) (c : Char) : (p.down n).after c = (p.after c).down n := by
  rw [after, after]
  split
  · exact nextLine_down n p
  · rfl

end Place

theorem places_down (n : Int) (p : Place) (u : List Char) :
    places (p.down n) u = (places p u).map (.down n) := by
  fun_induction places p u with
  | case1 p => rfl
  | case2 p cs ih => rw [places, Place.nextLine_down, ih]
  | case3 p cs ih => rw [places, Place.nextLine_down, ih]
  | case4 p c cs hsplice hreturn ih =>
    rw [places, Place.after_down, ih, List.map_cons]
    · exact hsplice
    · exact hreturn

theorem linesFrom_relocate {f : Location → Location} (line ts : List Scanned) :
    linesFrom (line.map (.relocate f)) (ts.map (.relocate f)) =
      (linesFrom line ts).map (List.map (.relocate f)) := by
  induction ts generalizing line with
  | nil =>
    rw [List.map_nil, linesFrom, linesFrom, List.isEmpty_map]
    split
    · rfl
    · rw [← List.map_reverse]
      rfl
  | cons t ts ih =>
    rw [List.map_cons, linesFrom, linesFrom, ← List.map_cons, ih, ← List.map_reverse, ← List.map_nil, ih]
    split
    · rename_i hkind
      rw [if_pos (show t.token.kind = .newline from hkind)]
      rfl
    · rename_i hkind
      rw [if_neg (show ¬ t.token.kind = .newline from hkind)]

namespace Source

variable {s s' : Source} {n : Int}

theorem settle_down (h : s'.file = s.file) (ls : List Lexeme) (ps : List Place) :
    s'.settle ls (ps.map (.down n)) = (s.settle ls ps).map (.relocate (.down n)) := by
  induction ls generalizing ps with
  | nil => rfl
  | cons l ls ih =>
    cases ps with
    | nil => rfl
    | cons p ps =>
      have htoken : s'.token (p.down n) l = (s.token p l).relocate (.down n) := by
        have hlocate : s'.locate (p.down n) = (s.locate p).down n := by
          rw [locate, h]
          rfl
        cases l with
        | token kind text => simp only [token, hlocate]; rfl
        | fault cause skipped => simp only [token, hlocate]; rfl
      rw [List.map_cons, settle, settle, ← List.map_cons, ← List.map_drop, ih, htoken, List.map_cons]

/-- A text that begins further down is read alike. -/
theorem logicalLines_down (s : Source) (n : Int) :
    ({ s with firstLine := s.firstLine + n } : Source).logicalLines =
      s.logicalLines.map (List.map (.relocate (.down n))) := by
  rw [logicalLines, logicalLines, ← linesFrom_relocate, List.map_nil]
  congr 1
  have hfile : ({ s with firstLine := s.firstLine + n } : Source).file = s.file := rfl
  rw [scan, scan, ← settle_down hfile]
  congr 1
  exact places_down n ⟨s.firstLine, 1⟩ s.text.toList

end Source

/-- Whether the last line of a source, if there is any, is a directive with a line end. -/
structure Source.EndsDirective (s : Source) : Prop where
  endsLine : s.EndsLine
  last : ∀ line ∈ s.logicalLines.getLast?, LineForm.of (line.map Scanned.token) ≠ .text

namespace Run

variable {u : SourceUnit} {r : Run} {line : List Scanned} {table : Table}

/-! ## After a directive -/

theorem pending_directive (u : SourceUnit) (r : Run) (mark name : Token) (rest : List Token) :
    (r.directive u mark name rest).pending = r.pending := by
  by_cases h : ∃ c, Keyword.ofText? name.text = some (.conditional c)
  · obtain ⟨c, hc⟩ := h
    simp only [directive, hc]
    exact (Keeps.conditional u r c).pending
  · exact (directive_spec u r mark rest (not_exists.mp h)).2.2

/-- No text waits after a line that is none. -/
theorem pending_take (h : LineForm.of (line.map Scanned.token) ≠ .text) :
    (take u r line).pending = [] := by
  obtain ⟨r', -, hafter⟩ := take_spec (u := u) (r := r) line
  have hflush : (r'.flush u).pending = [] := (flush_spec u r').2.2
  rw [hafter.pending, takeLine]
  cases hform : LineForm.of (line.map Scanned.token) with
  | text => exact absurd hform h
  | nothing => exact hflush
  | invalid mark name =>
    simp only
    split
    · exact hflush
    · exact hflush
  | directive mark name rest => exact (pending_directive ..).trans hflush

/-- What a run leaves that gets to the end of a source and finds a directive there. -/
structure Leaves (u : SourceUnit) (table : Table) : Prop where
  eq_takeLines : start u table =
    takeLines u { table, journal := { limit := u.setup.maxErrors } } u.source.logicalLines
  frames : (start u table).frames = []
  pending : (start u table).pending = []

theorem leaves_of_not_aborted (h : (start u table).aborted = false)
    (hends : u.source.EndsDirective) : Leaves u table := by
  generalize hr : takeLines u { table, journal := { limit := u.setup.maxErrors } }
    u.source.logicalLines = r
  have hstart : start u table = r.finish u := congrArg (finish · u) hr
  rw [hstart] at h
  have haborted : r.aborted = false := by
    refine Bool.eq_false_iff.mpr fun haborted => ?_
    rw [finish_of_aborted haborted, haborted] at h
    cases h
  have hpending : r.pending = [] := by
    rw [← hr] at haborted ⊢
    rw [takeLines_of_not_aborted haborted]
    have hlast := hends.last
    generalize u.source.logicalLines = lines at hlast
    cases lines using List.reverseRecOn with
    | nil => rfl
    | append_singleton lines line =>
      rw [List.foldl_append]
      exact pending_take (hlast line List.getLast?_concat)
  simp only [finish, flush_of_pending hpending] at h hstart
  rw [if_neg (by simp [haborted])] at h hstart
  cases hframes : r.frames with
  | nil =>
    rw [hframes] at hstart
    rw [← hr] at hstart
    exact ⟨hstart, hstart ▸ hr ▸ hframes, hstart ▸ hr ▸ hpending⟩
  | cons frame outer =>
    rw [hframes] at h
    cases h

/-- A new run with the table that was left goes on from there. -/
theorem InStep.begin {f : Location → Location} {exact : Prop} (hframes : r.frames = [])
    (hpending : r.pending = []) (haborted : r.aborted = false) (hplaceless : r.table.Placeless)
    (limit : Int) : InStep f r exact { table := r.table, journal := { limit } } r where
  table := .refl r.table
  frames := hframes
  verdicts := (List.append_nil _).symm
  output := (List.append_nil _).symm
  pending := hpending
  aborted := haborted
  placeless := hplaceless
  errors _ := rfl

/-- A run defines no macro that stands for the place where it is used. -/
theorem placeless_takeLines {lines : List (List Scanned)} (hplaceless : table.Placeless)
    (h : (takeLines u { table, journal := { limit := u.setup.maxErrors } } lines).journal.isFull =
      false) :
    (takeLines u { table, journal := { limit := u.setup.maxErrors } } lines).table.Placeless := by
  have hbegin : InStep id { table, journal := { limit := u.setup.maxErrors } } True
      { table, journal := { limit := u.setup.maxErrors } }
      { table, journal := { limit := u.setup.maxErrors } } :=
    .begin rfl rfl rfl hplaceless u.setup.maxErrors
  have hsetup : u.setup = u.setup := rfl
  refine (hbegin.takeLines hsetup rfl (fun _ _ _ _ _ => rfl) (.inl ⟨trivial, ?_⟩)).placeless
  simp only [Journal.isFull, decide_eq_false_iff_not] at h
  simp only [Journal.errorCount, Journal.errors, List.filter_nil, List.length_nil] at h ⊢
  omega

end Run

/-! ## One text after another -/

section
variable {file first : String} {setup : Setup}

/-- What is quoted of a text does not depend on a source above it, if the lines of that source are
counted alike by newlines and by every line boundary. -/
theorem inMessage_append (h : ({ text := first, file } : Source).EndsLine)
    (hexact : (Text.boundaryLines first.toList).length = first.toList.count '\n') {second : String}
    {t : Scanned} (ht : t ∈ ({ text := second, file } : Source).scan) :
    Run.inMessage { source := { text := first ++ second, file }, setup }
        (t.token.location.down (first.toList.count '\n')) =
      Run.inMessage { source := { text := second, file }, setup } t.token.location := by
  have hlisting : SourceUnit.listing { source := { text := first ++ second, file }, setup } =
      ⟨Text.boundaryLines first.toList ++ Text.boundaryLines second.toList⟩ := by
    rw [SourceUnit.listing, Listing.ofText, String.toList_append,
      Text.boundaryLines_append h.wholeLines]
  have hline : 1 ≤ t.token.location.line := (Source.line_of_mem_scan ht).1
  have hdown : (t.token.location.down (first.toList.count '\n')).line =
      t.token.location.line + (Text.boundaryLines first.toList).length := by
    rw [hexact]
    rfl
  have hbare : ∀ l ∈ (Text.boundaryLines first.toList).reverse.takeWhile Listing.continues,
      l = ['\\'] := bare_of_despliced h.despliced
  rw [Run.inMessage, hlisting, hdown, Listing.logicalLine_below hbare (by omega),
    Int.add_sub_cancel]
  rfl

namespace Run

theorem limit_start (u : SourceUnit) (table : Table) :
    (start u table).journal.limit = u.setup.maxErrors :=
  ((Extends.takeLines (u := u) _ _).trans (Extends.finish (u := u) _)).limit

/-- A run over two texts is one over the second that goes on from a run over the first. -/
theorem start_append_of_leaves {second : String} {table : Table}
    (h : ({ text := first, file } : Source).EndsLine)
    (hleaves : Leaves { source := { text := first, file }, setup } table)
    (haborted : (start { source := { text := first, file }, setup } table).aborted = false) :
    start { source := { text := first ++ second, file }, setup } table =
      (takeLines { source := { text := first ++ second, file }, setup }
        (start { source := { text := first, file }, setup } table)
        (({ text := second, file } : Source).logicalLines.map
          (List.map (.relocate (.down (first.toList.count '\n')))))).finish
        { source := { text := first ++ second, file }, setup } := by
  have hlines : ({ text := first ++ second, file } : Source).logicalLines =
      ({ text := first, file } : Source).logicalLines ++
        ({ text := second, file } : Source).logicalLines.map
          (List.map (.relocate (.down (first.toList.count '\n')))) := by
    rw [← Source.logicalLines_down]
    exact Source.logicalLines_extend h second
  have hfirst := (takeLines_congr (agree_append h setup second)
    (fun line hline => standAt_tokenAt hline)
    (Stands.initial table { limit := setup.maxErrors })).1.trans hleaves.eq_takeLines.symm
  rw [start]
  simp only
  rw [hlines, takeLines_append (by rw [hfirst, haborted]), hfirst]

/-- If a source ends with a directive, what follows it does what it does in a run of its own, with the
macros that the source left, but further down: it puts out the same, decides the same and changes the
macros alike. The journals have room for all errors. What is an error may depend on the text above,
unless the lines of that text are counted alike by newlines and by every line boundary. -/
theorem start_append (file first second : String) (setup : Setup) (table : Table)
    (hends : ({ text := first, file } : Source).EndsDirective) (hplaceless : table.Placeless) :
    let unit (text : String) : SourceUnit := { source := { text, file }, setup }
    let before := start (unit first) table
    let after := start (unit second) before.table
    let whole := start (unit (first ++ second)) table
    let exact := (Text.boundaryLines first.toList).length = first.toList.count '\n'
    before.aborted = false →
      (before.journal.errorCount + after.journal.errorCount : Int) < setup.maxErrors →
        exact ∨ (whole.journal.errorCount : Int) < setup.maxErrors →
          Continues (.down (first.toList.count '\n')) before after whole ∧
            (exact → whole.journal.errorCount =
              before.journal.errorCount + after.journal.errorCount) := by
  intro unit before after whole exact haborted hcount hwhole
  have hleaves : Leaves (unit first) table := leaves_of_not_aborted haborted hends
  have hlimit : before.journal.limit = setup.maxErrors := limit_start (unit first) table
  have hlimit' : after.journal.limit = setup.maxErrors := limit_start (unit second) before.table
  have hlimit'' : whole.journal.limit = setup.maxErrors :=
    limit_start (unit (first ++ second)) table
  have htable : before.table.Placeless := by
    have hfull : before.journal.isFull = false := by
      simp only [Journal.isFull, decide_eq_false_iff_not]
      omega
    have htaken : before = _ := hleaves.eq_takeLines
    rw [htaken] at hfull ⊢
    exact placeless_takeLines hplaceless hfull
  have hroom : Room before exact after whole := by
    rcases hwhole with hexact | hwhole
    · exact .inl ⟨hexact, by omega⟩
    · refine .inr ⟨?_, ?_⟩
      · simp only [Journal.isFull, decide_eq_false_iff_not]
        omega
      · simp only [Journal.isFull, decide_eq_false_iff_not]
        omega
  have hstart : whole = _ := start_append_of_leaves hends.endsLine hleaves haborted
  have hbegin : InStep (.down (first.toList.count '\n')) before exact
      { table := before.table, journal := { limit := setup.maxErrors } } before :=
    .begin hleaves.frames hleaves.pending haborted htable setup.maxErrors
  rw [hstart] at hroom ⊢
  have hsetup : (unit (first ++ second)).setup = (unit second).setup := rfl
  have htaken := hbegin.takeLines hsetup hlimit
    (fun hexact line hline t ht =>
      inMessage_append hends.endsLine hexact (Source.mem_scan_of_mem_logicalLines hline ht))
    (hroom.of_extends (.finish _) (.finish _))
  have hfinished := htaken.finish hsetup
  exact ⟨hfinished.toContinues, hfinished.errors⟩

end Run

end

theorem endsDirective_of_scan {s : Source} {line : List Scanned} {last : Scanned}
    (h : s.scan = line ++ [last]) (hkind : last.token.kind = .newline)
    (hform : ∀ l ∈ (linesFrom [] (line ++ [last])).getLast?,
      LineForm.of (l.map Scanned.token) ≠ .text) : s.EndsDirective where
  endsLine := Source.endsLine_of_scan h List.getLast?_concat hkind
  last := by
    rw [Source.logicalLines, h]
    exact hform

/-- The tokens of a directive in line 1. -/
def directiveTokens (name : String) (rest : List (Kind × String × Int)) : List Scanned :=
  [⟨{ kind := .punctuator, text := "#", location := ⟨"<input>", 1, 1⟩ }, none⟩,
    ⟨{ kind := .identifier, text := name, location := ⟨"<input>", 1, 2⟩ }, none⟩] ++
    rest.map fun (kind, text, column) => ⟨{ kind, text, location := ⟨"<input>", 1, column⟩ }, none⟩

/-- The macro that `#define A` defines. -/
def emptyMacro : Definition := { name := "A", location := some ⟨"<input>", 1, 9⟩ }

/-- A condition is decided with a macro that the text above defined. -/
theorem Run.verdicts_append_define :
    (start { source := { text := "#define A\n" ++ "#ifdef A\n#endif\n" } } ∅).verdicts =
      [⟨.opening .ifDefined, ⟨"<input>", 2, 1⟩, some true, "A"⟩] := by
  have hscan : ({ text := "#define A\n" } : Source).scan =
      directiveTokens "define" [(.whitespace, " ", 8), (.identifier, "A", 9)] ++
        [⟨{ kind := .newline, text := "\n", location := ⟨"<input>", 1, 10⟩ }, none⟩] := by cbv
  have hbefore : start { source := { text := "#define A\n" } } ∅ =
      { table := Table.define ∅ emptyMacro, journal := { limit := 100 } } := by cbv
  have hafter : start { source := { text := "#ifdef A\n#endif\n" } } (Table.define ∅ emptyMacro) =
      { table := Table.define ∅ emptyMacro, journal := { limit := 100 },
        verdicts := [⟨.opening .ifDefined, ⟨"<input>", 1, 1⟩, some true, "A"⟩] } := by cbv
  have hcount : ((start { source := { text := "#define A\n" } } ∅).journal.errorCount +
      (start { source := { text := "#ifdef A\n#endif\n" } }
        (start { source := { text := "#define A\n" } } ∅).table).journal.errorCount : Int) < 100 := by
    rw [hbefore, hafter]
    decide
  have h := (start_append "<input>" "#define A\n" "#ifdef A\n#endif\n" {} ∅
    (endsDirective_of_scan hscan rfl (by decide)) (List.forall_mem_nil _) (congrArg Run.aborted hbefore) hcount
    (.inl (by decide))).1.verdicts
  rw [hbefore, hafter] at h
  rw [h]
  decide

/-- A source with room for one error. -/
def oneError (text : String) : SourceUnit := { source := { text }, setup := { maxErrors := 1 } }

/-- A form feed ends a line of the listing. So the text of a `#warning` is reported for a character
constant without an end if the line above has a form feed, and a quotation mark is not reported at all
if the line above has `#warning` after a form feed. Each time other macros are left. -/
theorem Run.names_append_formFeed :
    (({ text := "#pragma x\x0c\n" } : Source).EndsDirective ∧
      (start (oneError "#pragma x\x0c\n") ∅).aborted = false ∧
      (start (oneError "#pragma x\x0c\n") ∅).journal.errorCount +
        (start (oneError "#warning it's\n#define X\n")
          (start (oneError "#pragma x\x0c\n") ∅).table).journal.errorCount < 1 ∧
      (start (oneError ("#pragma x\x0c\n" ++ "#warning it's\n#define X\n")) ∅).table.names ≠
        (start (oneError "#warning it's\n#define X\n")
          (start (oneError "#pragma x\x0c\n") ∅).table).table.names) ∧
    (({ text := "#pragma x\x0c#warning w\n" } : Source).EndsDirective ∧
      (start (oneError "#pragma x\x0c#warning w\n") ∅).aborted = false ∧
      (start (oneError ("#pragma x\x0c#warning w\n" ++ "#define X '\n#define Y\n"))
        ∅).journal.errorCount < 1 ∧
      (start (oneError ("#pragma x\x0c#warning w\n" ++ "#define X '\n#define Y\n")) ∅).table.names ≠
        (start (oneError "#define X '\n#define Y\n")
          (start (oneError "#pragma x\x0c#warning w\n") ∅).table).table.names) := by
  constructor
  · have hscan : ({ text := "#pragma x\x0c\n" } : Source).scan =
        directiveTokens "pragma" [(.whitespace, " ", 8), (.identifier, "x", 9),
          (.whitespace, "\x0c", 10)] ++
          [⟨{ kind := .newline, text := "\n", location := ⟨"<input>", 1, 11⟩ }, none⟩] := by cbv
    have hbefore : start (oneError "#pragma x\x0c\n") ∅ =
        { table := ∅, journal := { limit := 1 } } := by cbv
    have hafter : (start (oneError "#warning it's\n#define X\n") ∅).journal.errorCount = 0 := by
      decide +kernel
    rw [hbefore, hafter]
    exact ⟨endsDirective_of_scan hscan rfl (by decide), rfl, by decide, by decide +kernel⟩
  · have hscan : ({ text := "#pragma x\x0c#warning w\n" } : Source).scan =
        directiveTokens "pragma" [(.whitespace, " ", 8), (.identifier, "x", 9),
          (.whitespace, "\x0c", 10), (.punctuator, "#", 11), (.identifier, "warning", 12),
          (.whitespace, " ", 19), (.identifier, "w", 20)] ++
          [⟨{ kind := .newline, text := "\n", location := ⟨"<input>", 1, 21⟩ }, none⟩] := by cbv
    have hbefore : start (oneError "#pragma x\x0c#warning w\n") ∅ =
        { table := ∅, journal := { limit := 1 } } := by cbv
    rw [hbefore]
    exact ⟨endsDirective_of_scan hscan rfl (by decide), rfl, by decide +kernel, by decide +kernel⟩

end CPreprocessor
