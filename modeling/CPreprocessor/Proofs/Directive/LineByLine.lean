import CPreprocessor.Proofs.Directive.Selection
import CPreprocessor.Proofs.Expansion.Concatenation

/-!
# Lines that are expanded together

Text lines that wait are expanded as one list of tokens, so that an invocation may span them. If none
of them begins with a `(` and none alone ends in an open argument list, there is no such invocation,
and the expansion of all is that of each, one after the other (`Expander.expand_flatten`). So it does
not matter whether a run tries them together first (`Run.flush_eq_lineByLine`).
-/

namespace CPreprocessor

variable {lines : List (List Token)}

theorem opensArguments_flatten (h : ∀ line ∈ lines, opensArguments line = false) :
    opensArguments lines.flatten = false := by
  induction lines with
  | nil => rfl
  | cons line lines ih =>
    obtain ⟨hline, hlines⟩ := List.forall_mem_cons.mp h
    rw [List.flatten_cons, opensArguments_append (ih hlines), hline]

/-- A line that is expanded apart from those before and after it: it takes no part in their
invocations, and they take none in its own. A token for the end of the input counts for nothing. -/
structure Expander.Apart (e : Expander) (line : List Token) : Prop where
  opens : opensArguments (line.filter fun t => t.kind ≠ .endOfInput) = false
  closed : ∀ error, e.expand line = .error error → error.fault ≠ .unterminatedInvocation

namespace Expander

variable {e : Expander}

/-- A run over lines that take no part in each other's invocations is one over each of them, up to the
first that fails. -/
theorem run_flatten (h : ∀ line ∈ lines, opensArguments line = false ∧
      ∀ error, e.run 0 {} line = .error error → error.fault ≠ .unterminatedInvocation)
    (done : Progress) :
    e.run 0 done lines.flatten =
      (lines.mapM (e.run 0 {})).map (·.foldl (fun before p => p.atop before) done) := by
  induction lines generalizing done with
  | nil => exact run_nil
  | cons line lines ih =>
    obtain ⟨⟨-, hclosed⟩, hlines⟩ := List.forall_mem_cons.mp h
    have happend := run_append (e := e) (opensArguments_flatten fun line hline => (hlines line hline).1)
      0 done line
    have hatop := run_atop (e := e) done 0 {} line
    rw [show Progress.atop {} done = done from rfl] at hatop
    rw [List.flatten_cons, mapM_cons_except]
    cases hline : e.run 0 {} line with
    | error error =>
      rw [hatop, hline] at happend
      exact happend (hclosed error hline)
    | ok p =>
      rw [hatop, hline] at happend
      simp only [Except.map] at happend
      rw [happend, ih hlines]
      cases lines.mapM (e.run 0 {}) with
      | error error => rfl
      | ok ps => rfl

/-- The outcome of an expansion that has ended. -/
def Expansion.ofProgress (p : Progress) : Expansion :=
  { tokens := p.tokens.filter fun t => t.kind ≠ .placemarker, trace := p.trace.reverse }

theorem Expansion.ofProgress_foldl (ps : List Progress) (done : Progress) :
    ofProgress (ps.foldl (fun before p => p.atop before) done) =
      ⟨(ofProgress done).tokens ++ (ps.map ofProgress).flatMap Expansion.tokens,
        (ofProgress done).trace ++ (ps.map ofProgress).flatMap Expansion.trace⟩ := by
  induction ps generalizing done with
  | nil => rw [List.foldl_nil, List.map_nil, List.flatMap_nil, List.flatMap_nil, List.append_nil,
      List.append_nil]
  | cons p ps ih =>
    have hatop : ofProgress (p.atop done) = ⟨(ofProgress done).tokens ++ (ofProgress p).tokens,
        (ofProgress done).trace ++ (ofProgress p).trace⟩ := by
      simp only [ofProgress, Progress.atop, Progress.tokens, List.reverse_append, List.filter_append]
    rw [List.foldl_cons, ih, hatop, List.map_cons, List.flatMap_cons, List.flatMap_cons,
      List.append_assoc, List.append_assoc]

/-- The expansion of lines that are expanded apart is that of each of them, one after the other, or
the failure of the first that cannot be expanded. -/
theorem expand_flatten (h : ∀ line ∈ lines, e.Apart line) :
    e.expand lines.flatten = (lines.mapM e.expand).map fun expansions =>
      ⟨expansions.flatMap Expansion.tokens, expansions.flatMap Expansion.trace⟩ := by
  let strip : List Token → List Token := List.filter fun t => t.kind ≠ .endOfInput
  have hexpand : ∀ line, e.expand line = (e.run 0 {} (strip line)).map .ofProgress := fun _ => rfl
  have hflatten : strip lines.flatten = (lines.map strip).flatten := List.filter_flatten
  have hapart : ∀ line ∈ lines.map strip, opensArguments line = false ∧
      ∀ error, e.run 0 {} line = .error error → error.fault ≠ .unterminatedInvocation := by
    refine List.forall_mem_map.mpr fun line hline => ⟨(h line hline).opens, fun error herror => ?_⟩
    exact (h line hline).closed error (map_eq_error_iff.mpr herror)
  have hlines : lines.mapM e.expand =
      ((lines.map strip).mapM (e.run 0 {})).map (List.map .ofProgress) := by
    rw [List.mapM_map]
    exact mapM_map_except (fun line => e.run 0 {} (strip line)) Expansion.ofProgress lines
  rw [hexpand, hflatten, run_flatten hapart, hlines]
  cases (lines.map strip).mapM (e.run 0 {}) with
  | error error => rfl
  | ok ps => exact congrArg Except.ok (Expansion.ofProgress_foldl ps {})

end Expander

namespace Run

variable {u : SourceUnit}

/-- The tokens that a line on its own expands to, if it can be expanded. -/
def lineTokens (e : Expander) (line : List Token) : List Token :=
  match e.expand line with
  | .ok expansion => expansion.tokens
  | .error _ => []

/-- What is entered for a line that cannot be expanded on its own. -/
def lineError? (u : SourceUnit) (table : Table) (line : List Token) : Option Diagnostic :=
  match (u.expander table).expand line with
  | .ok _ => none
  | .error error => some (.error (error.reportIn u.listing) false)

theorem lines_of_mapM {table : Table} {lines : List (List Token)} {expansions : List Expander.Expansion}
    (h : lines.mapM (u.expander table).expand = .ok expansions) :
    lines.flatMap (lineTokens (u.expander table)) = expansions.flatMap Expander.Expansion.tokens ∧
      lines.filterMap (lineError? u table) = [] := by
  induction lines generalizing expansions with
  | nil =>
    cases h
    exact ⟨rfl, rfl⟩
  | cons line lines ih =>
    rw [mapM_cons_except] at h
    cases hline : (u.expander table).expand line with
    | error error =>
      rw [hline] at h
      cases h
    | ok expansion =>
      rw [hline] at h
      obtain ⟨rest, hrest, rfl⟩ := map_eq_ok_iff.mp h
      obtain ⟨htokens, herrors⟩ := ih hrest
      rw [List.flatMap_cons, List.filterMap_cons, List.flatMap_cons, htokens, herrors, lineTokens,
        lineError?, hline]
      exact ⟨rfl, rfl⟩

theorem foldl_expandLine (lines : List (List Token)) (r : Run) :
    lines.foldl (expandLine u) r =
      { r with
        output := r.output ++ (lines.flatMap (lineTokens (u.expander r.table))).map
          (outputToken u.setup.keepComments)
        journal := { r.journal with
          entries := r.journal.entries ++ lines.filterMap (lineError? u r.table) } } := by
  induction lines generalizing r with
  | nil =>
    rw [List.flatMap_nil, List.map_nil, List.append_nil, List.filterMap_nil, List.append_nil]
    rfl
  | cons line lines ih =>
    have htable : (expandLine u r line).table = r.table := by
      rw [expandLine]
      split
      · rfl
      · rfl
    rw [List.foldl_cons, ih, htable, List.flatMap_cons, List.filterMap_cons, expandLine, lineTokens,
      lineError?]
    cases (u.expander r.table).expand line with
    | ok expansion =>
      simp only [emit, List.map_append, List.append_assoc]
    | error error =>
      simp only [record, Journal.error, Journal.add, List.nil_append, List.append_assoc,
        List.singleton_append]

/-- If the lines that wait are expanded apart, trying them together first makes no difference: what is
put out is the expansion of each line that can be expanded, in order, and an error is entered for each
of the other ones, in order. -/
theorem flush_eq_lineByLine (u : SourceUnit) (r : Run)
    (h : ∀ line ∈ r.pending, (u.expander r.table).Apart line) :
    r.flush u =
      { r with
        pending := []
        output := r.output ++ (r.pending.flatMap (lineTokens (u.expander r.table))).map
          (outputToken u.setup.keepComments)
        journal := { r.journal with
          entries := r.journal.entries ++ r.pending.filterMap (lineError? u r.table) } } := by
  rw [← foldl_expandLine r.pending { r with pending := [] }]
  simp only [flush]
  split
  · rename_i hnil
    rw [List.isEmpty_iff.mp hnil]
    rfl
  rw [Expander.expand_flatten h]
  cases hlines : r.pending.mapM (u.expander r.table).expand with
  | error error => rfl
  | ok expansions =>
    obtain ⟨htokens, herrors⟩ := lines_of_mapM (u := u) hlines
    rw [foldl_expandLine]
    simp only [Except.map, emit, htokens, herrors, List.append_nil]

/-- Of the lines `f(;,;)` and `;`, where `f` takes one argument, only the first is lost. -/
theorem flush_argumentCount :
    let u : SourceUnit := { source := { text := "f(;,;)\n;\n" } }
    let call := [wordAt "f" 1, markAt "(" 2, markAt ";" 3, markAt "," 4, markAt ";" 5, markAt ")" 6]
    let r : Run := { table := aliasTable, pending := [call, [markAt ";" 1]], journal := {} }
    (∀ line ∈ r.pending, (u.expander r.table).Apart line) ∧ (r.flush u).output = [markAt ";" 1] ∧
      (r.flush u).journal.entries.map Diagnostic.message =
        ["error expanding macro 'f': expects 1 argument, got 2"] := by
  intro u call r
  have hcall : (u.expander aliasTable).expand call =
      .error ⟨"f", .argumentCount 1 2 false, some ⟨"<input>", 1, 1⟩⟩ := by
    have hhalted : (Machine.step (u.expander aliasTable))^[1] (Machine.start call) =
        .halted (.error ⟨"f", .argumentCount 1 2 false, some ⟨"<input>", 1, 1⟩⟩) := by cbv
    exact Machine.expand_of_halted 1 hhalted
  have hmark : (u.expander aliasTable).expand [markAt ";" 1] = .ok ⟨[markAt ";" 1], []⟩ := by cbv
  have hapart : ∀ line ∈ r.pending, (u.expander r.table).Apart line := by
    refine List.forall_mem_cons.mpr ⟨⟨by decide, fun error herror => ?_⟩,
      List.forall_mem_singleton.mpr ⟨by decide, fun error herror => ?_⟩⟩
    · obtain rfl := Except.error.inj (hcall.symm.trans herror)
      rintro ⟨⟩
    · cases hmark.symm.trans herror
  refine ⟨hapart, ?_⟩
  rw [flush_eq_lineByLine u r hapart]
  have hlines : r.pending.flatMap (lineTokens (u.expander r.table)) = [markAt ";" 1] := by
    simp [r, lineTokens, hcall, hmark]
  have herrors : r.pending.filterMap (lineError? u r.table) =
      [.error (ExpansionError.reportIn ⟨"f", .argumentCount 1 2 false, some ⟨"<input>", 1, 1⟩⟩
        u.listing) false] := by
    simp [r, lineError?, hcall, hmark]
  rw [hlines, herrors]
  exact ⟨rfl, by decide +kernel⟩

end Run

end CPreprocessor
