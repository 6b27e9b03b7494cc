import CPreprocessor.Proofs.Source.Quotation
import CPreprocessor.Proofs.Source.Tokenize

/-!
# Reading goes line by line

A source that ends with a line end is read apart from what follows it: the tokens and the reports of
its faults come first, and then those of what follows, read in its place (`Source.reads_extend`). So a
fault covers nothing beyond its line, and no token does that is read before a line end.
-/

namespace CPreprocessor

namespace Source

variable {s s' : Source} {ts us : List Scanned} {t : Scanned} {lenient : Bool}

/-! ## The reports of two parts -/

/-- What is reported of a source quotes none of the lines that follow it. -/
theorem reportOf?_above (h : s.EndsLine) (text : String) (ht : t ∈ s.scan) :
    (s.extend text).reportOf? t = s.reportOf? t := by
  obtain ⟨hfirst, hlast⟩ := line_of_mem_scan ht
  exact reportOf?_congr (lineText_above h.wholeLines hfirst (hlast h.wholeLines) text)

/-- What is reported of the text in the place after a source quotes none of the lines above it. -/
theorem reportOf?_below (h : s.EndsLine) (text : String) (ht : t ∈ (s.following text).scan) :
    (s.extend text).reportOf? t = (s.following text).reportOf? t :=
  reportOf?_congr (lineText_below h.wholeLines (line_of_mem_scan ht).1 text)

/-! ## The outcome of two parts -/

theorem outcome_congr (h : ∀ t ∈ ts, s.reportOf? t = s'.reportOf? t) (last : Token) :
    s.outcome lenient last ts = s'.outcome lenient last ts := by
  induction ts with
  | nil => rfl
  | cons t ts ih =>
    obtain ⟨ht, hts⟩ := List.forall_mem_cons.mp h
    rw [outcome, outcome, ih hts, stop?, stop?, ht]

/-- Reading goes on behind tokens that do not stop it. -/
theorem outcome_append (s : Source) (lenient : Bool) (last last' : Token) (ts us : List Scanned) :
    s.outcome lenient last (ts ++ us) =
      match s.outcome lenient last' ts with
      | (front, .error report) => (front, .error report)
      | (front, .ok _) =>
        (front ++ (s.outcome lenient last us).1, (s.outcome lenient last us).2) := by
  induction ts with
  | nil => rfl
  | cons t ts ih =>
    rw [List.cons_append, outcome, outcome]
    cases s.stop? lenient t with
    | some report => rfl
    | none =>
      simp only [ih]
      rcases s.outcome lenient last' ts with ⟨front, report | last⟩
      · rfl
      · rfl

theorem endToken_extend (h : s.EndsLine) (text : String) :
    (s.extend text).endToken = (s.following text).endToken := by
  have hne : (s.following text).places ≠ [] := places_ne_nil
  obtain ⟨p, hp⟩ := Option.isSome_iff_exists.mp (List.getLast?_isSome.mpr hne)
  have hlast : (s.extend text).places.getLast? = some p := by
    rw [places_extend h, List.getLast?_append_of_ne_nil _ hne, hp]
  rw [endToken, endToken, List.getLastD_eq_getLast?, List.getLastD_eq_getLast?, hlast, hp]
  rfl

theorem tokenize_extend (h : s.EndsLine) (text : String) (lenient : Bool) :
    (s.extend text).tokenize lenient =
      match s.tokenize lenient with
      | (front, .error report) => (front, .error report)
      | (front, .ok _) =>
        (front ++ ((s.following text).tokenize lenient).1,
          ((s.following text).tokenize lenient).2) := by
  rw [tokenize_eq, tokenize_eq, tokenize_eq, scan_extend h, endToken_extend h,
    outcome_append _ _ _ s.endToken, outcome_congr fun t ht => reportOf?_above h text ht,
    outcome_congr fun t ht => reportOf?_below h text ht]

/-! ## What reading hands out -/

/-- The tokens of a source as they are read, each with the report of the fault that it stands in
for. -/
def reads (s : Source) : List (Token × Option Report) :=
  (s.tokenize true).1.map fun t => (t.token, s.reportOf? t)

/-- If the last token of a source is a line end, what is read of the source and more text behind it is
what is read of the source, but for its end, and then what is read of the other text from the line on
that comes next. Where faults stop reading, it is the first one in the source that does, or else the
first one in the other text. -/
theorem reads_extend {s : Source} (h : ∀ t ∈ (s.tokenize true).1.getLast?, t.token.kind = .newline)
    (text : String) :
    let next : Source := { s with text, firstLine := s.firstLine + s.text.toList.count '\n' }
    let whole : Source := { s with text := s.text ++ text }
    whole.reads = s.reads ++ next.reads ∧ (whole.tokenize true).2 = (next.tokenize true).2 ∧
      whole.tokenize false =
        match s.tokenize false with
        | (front, .error report) => (front, .error report)
        | (front, .ok _) => (front ++ (next.tokenize false).1, (next.tokenize false).2) := by
  intro next whole
  have hscan : ∀ s : Source, s.tokenize true = (s.scan, .ok s.endToken) := fun s => by
    rw [tokenize_eq, outcome_lenient]
  have hends : s.EndsLine := by
    rwa [hscan] at h
  refine ⟨?_, ?_, tokenize_extend hends text false⟩
  · have habove : s.scan.map (fun t => (t.token, whole.reportOf? t)) = s.reads := by
      rw [reads, hscan]
      exact List.map_congr_left fun t ht => congrArg _ (reportOf?_above hends text ht)
    have hbelow : next.scan.map (fun t => (t.token, whole.reportOf? t)) = next.reads := by
      rw [reads, hscan]
      exact List.map_congr_left fun t ht => congrArg _ (reportOf?_below hends text ht)
    have hwhole : whole.scan = s.scan ++ next.scan := scan_extend hends text
    rw [reads, hscan, hwhole, List.map_append, habove, hbelow]
  · rw [hscan, hscan]
    exact congrArg Except.ok (endToken_extend hends text)

/-- A quote that is not closed, and a source behind its line. -/
theorem reads_extend_quote :
    let s : Source := { text := "x 'a\n" }
    (∀ t ∈ (s.tokenize true).1.getLast?, t.token.kind = .newline) ∧
      ({ text := "x 'a\n" ++ "y" } : Source).reads =
        s.reads ++ ({ text := "y", firstLine := 2 } : Source).reads ∧
      s.reads.map Prod.snd =
        [none, none, some (s.report ⟨"<input>", 1, 3⟩ .unterminatedCharacter), none] := by
  intro s
  have hread : s.tokenize true = (s.scan, .ok s.endToken) := by rw [tokenize_eq, outcome_lenient]
  have hlast : ∀ t ∈ (s.tokenize true).1.getLast?, t.token.kind = .newline := by
    have hkind : s.scan.getLast?.map (fun t => t.token.kind) = some .newline := by decide +kernel
    intro t ht
    rw [hread] at ht
    rw [show s.scan.getLast? = some t from ht] at hkind
    exact Option.some.inj hkind
  have hcount : s.text.toList.count '\n' = 1 := by decide +kernel
  have hreads := (reads_extend hlast "y").1
  rw [hcount] at hreads
  refine ⟨hlast, hreads, ?_⟩
  rw [reads, hread]
  decide +kernel

end Source

end CPreprocessor
