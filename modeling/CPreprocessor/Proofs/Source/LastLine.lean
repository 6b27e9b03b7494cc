import CPreprocessor.Proofs.Source.Quotation

/-!
# The last line of a source

A source whose last token is a line end has, after that line end, nothing but splices. So neither
the tokens of the source nor what is quoted at their places depends on what follows it
(`Source.EndsLine.quoted`).
-/

namespace CPreprocessor

/-! ## The line end that is read last -/

/-- Whether a text goes on in the next line, if a newline follows it. -/
def GoesOn (u : List Char) : Prop := ['\\'] <:+ u ∨ ['\\', '\r'] <:+ u

variable {c : Char} {u v : List Char}

theorem GoesOn.append (h : GoesOn v) (u : List Char) : GoesOn (u ++ v) :=
  h.imp (·.trans (List.suffix_append u v)) (·.trans (List.suffix_append u v))

theorem GoesOn.of_cons (h : GoesOn (c :: u)) :
    GoesOn u ∨ c :: u = ['\\'] ∨ c :: u = ['\\', '\r'] := by
  rcases h with h | h
  · rcases List.suffix_cons_iff.mp h with h | h
    · exact .inr (.inl h.symm)
    · exact .inl (.inl h)
  · rcases List.suffix_cons_iff.mp h with h | h
    · exact .inr (.inr h.symm)
    · exact .inl (.inr h)

/-- Whole lines end with a newline that is no part of a splice, and splices after it. -/
theorem exists_lastNewline (h : WholeLines (despliced u)) (hne : despliced u ≠ []) :
    ∃ body tail, u = body ++ '\n' :: tail ∧ ¬ GoesOn body ∧ despliced tail = [] := by
  fun_induction despliced u with
  | case1 => exact absurd rfl hne
  | case2 cs ih =>
    obtain ⟨body, tail, rfl, hbody, htail⟩ := ih h hne
    refine ⟨'\\' :: '\n' :: body, tail, rfl, fun hgoes => ?_, htail⟩
    rcases hgoes.of_cons with hgoes | hgoes | hgoes
    · rcases hgoes.of_cons with hgoes | hgoes | hgoes
      · exact hbody hgoes
      all_goals cases hgoes
    all_goals cases hgoes
  | case3 cs ih =>
    obtain ⟨body, tail, rfl, hbody, htail⟩ := ih h hne
    refine ⟨'\\' :: '\r' :: '\n' :: body, tail, rfl, fun hgoes => ?_, htail⟩
    rcases hgoes.of_cons with hgoes | hgoes | hgoes
    · rcases hgoes.of_cons with hgoes | hgoes | hgoes
      · rcases hgoes.of_cons with hgoes | hgoes | hgoes
        · exact hbody hgoes
        all_goals cases hgoes
      all_goals cases hgoes
    all_goals cases hgoes
  | case4 c cs hsplice hreturn ih =>
    by_cases hcs : despliced cs = []
    · rw [hcs] at h
      rw [h.singleton]
      exact ⟨[], cs, rfl, by simp [GoesOn], hcs⟩
    · obtain ⟨body, tail, rfl, hbody, htail⟩ := ih h.tail hcs
      refine ⟨c :: body, tail, rfl, fun hgoes => ?_, htail⟩
      rcases hgoes.of_cons with hgoes | hgoes | hgoes
      · exact hbody hgoes
      · obtain ⟨rfl, rfl⟩ := List.cons.inj hgoes
        exact hsplice tail rfl rfl
      · obtain ⟨rfl, rfl⟩ := List.cons.inj hgoes
        exact hreturn tail rfl rfl

namespace Text

/-- The last of the lines of a text that does not go on does not go on either. -/
theorem exists_boundaryLinesFrom_line {line : List Char} (hline : '\n' ∉ line) :
    ∀ before : List Char, ¬ GoesOn (before.reverse ++ line) →
      ∃ above last, boundaryLinesFrom before (line ++ ['\n']) = above ++ [last] ∧
        Listing.continues last = false := by
  have hends : ∀ {before : List Char}, ¬ ['\\'] <:+ before.reverse →
      Listing.continues before.reverse = false := by
    intro before hbefore
    refine decide_eq_false fun hlast => hbefore ?_
    obtain ⟨start, hstart⟩ := List.getLast?_eq_some_iff.mp hlast
    exact ⟨start, hstart.symm⟩
  induction line with
  | nil =>
    intro before h
    rw [List.append_nil] at h
    exact ⟨[], before.reverse, rfl, hends fun hlast => h (.inl hlast)⟩
  | cons c line ih =>
    intro before h
    have hmem : '\n' ∉ line := List.not_mem_of_not_mem_cons hline
    by_cases hreturn : c = '\r' ∧ line = []
    · obtain ⟨rfl, rfl⟩ := hreturn
      refine ⟨[], before.reverse, rfl, hends fun ⟨start, hstart⟩ => h (.inr ⟨start, ?_⟩)⟩
      rw [← hstart, List.append_assoc]
      rfl
    · have hpair : ∀ cs, c = '\r' → line ++ ['\n'] = '\n' :: cs → False := by
        rintro cs rfl hcs
        cases line with
        | nil => exact hreturn ⟨rfl, rfl⟩
        | cons d line =>
          obtain ⟨rfl, -⟩ := List.cons.inj hcs
          exact hmem List.mem_cons_self
      rw [List.cons_append, boundaryLinesFrom_cons hpair]
      split
      · obtain ⟨above, last, heq, hlast⟩ := ih hmem [] fun hgoes =>
          h (List.append_cons .. ▸ GoesOn.append hgoes _)
        exact ⟨before.reverse :: above, last, by rw [heq, List.cons_append], hlast⟩
      · refine ih hmem (c :: before) ?_
        rwa [List.reverse_cons, List.append_assoc, List.singleton_append]

end Text

/-- What is read of a text, up to the line end that is read last, ends in a line that does not go
on. -/
theorem exists_boundaryLines_lastNewline (h : ¬ GoesOn u) :
    ∃ above last, Text.boundaryLines (u ++ ['\n']) = above ++ [last] ∧
      Listing.continues last = false := by
  obtain ⟨before, line, heq, hbefore, hline⟩ := (WholeLines.concat u).eq_append (by simp)
  rw [← List.append_assoc] at heq
  obtain rfl := List.append_cancel_right heq
  obtain ⟨above, last, habove, hlast⟩ :=
    Text.exists_boundaryLinesFrom_line hline [] fun hgoes => h (hgoes.append before)
  refine ⟨Text.boundaryLines before ++ above, last, ?_, hlast⟩
  rw [List.append_assoc, Text.boundaryLines_append hbefore, List.append_assoc, ← habove]
  rfl

/-- A text that is made of splices only has a line for each. -/
theorem boundaryLines_splices (h : despliced u = []) :
    ∀ l ∈ Text.boundaryLines u, l = ['\\'] := by
  fun_induction despliced u with
  | case1 => exact List.forall_mem_nil _
  | case2 cs ih => exact List.forall_mem_cons.mpr ⟨rfl, ih h⟩
  | case3 cs ih => exact List.forall_mem_cons.mpr ⟨rfl, ih h⟩
  | case4 => cases h

/-- Whole lines end in no splice but ones with nothing else in the line. -/
theorem bare_of_despliced (h : WholeLines (despliced u)) :
    ∀ l ∈ (Text.boundaryLines u).reverse.takeWhile Listing.continues, l = ['\\'] := by
  by_cases hne : despliced u = []
  · exact fun l hl => boundaryLines_splices hne l
      (List.mem_reverse.mp ((List.takeWhile_sublist _).subset hl))
  obtain ⟨body, tail, rfl, hbody, htail⟩ := exists_lastNewline h hne
  obtain ⟨above, last, hlines, hlast⟩ := exists_boundaryLines_lastNewline hbody
  rw [List.append_cons, Text.boundaryLines_append (.concat body), hlines, List.append_assoc,
    List.singleton_append, Listing.takeWhile_reverse_append hlast]
  exact fun l hl => boundaryLines_splices htail l
    (List.mem_reverse.mp ((List.takeWhile_sublist _).subset hl))

namespace Source

variable {s : Source}

/-- A source up to the line end that is read last in it. -/
theorem EndsLine.eq_extend (h : s.EndsLine) (hne : s.scan ≠ []) :
    ∃ (body : List Char) (tail : String),
      s = Source.extend { s with text := String.ofList (body ++ ['\n']) } tail ∧
        ¬ GoesOn body ∧ CPreprocessor.despliced tail.toList = [] := by
  have hdespliced : CPreprocessor.despliced s.text.toList ≠ [] := by
    intro hnil
    rw [scan, hnil, CPreprocessor.lexemes] at hne
    exact hne rfl
  obtain ⟨body, tail, heq, hbody, htail⟩ := exists_lastNewline h.despliced hdespliced
  refine ⟨body, String.ofList tail, ?_, hbody, by rwa [String.toList_ofList]⟩
  rw [Source.extend, ← String.ofList_append, List.append_assoc, List.singleton_append, ← heq,
    String.ofList_toList]

/-- Splices at the end are no tokens. -/
theorem scan_extend_splices (h : WholeLines s.text.toList) {tail : String}
    (htail : despliced tail.toList = []) : (s.extend tail).scan = s.scan := by
  have htext : (s.extend tail).text.toList = s.text.toList ++ tail.toList := String.toList_append
  have hdespliced : despliced (s.extend tail).text.toList = despliced s.text.toList := by
    rw [htext, despliced_append h, htail, List.append_nil]
  have hplaces : (s.extend tail).places.dropLast = s.places.dropLast := by
    have hlength := length_places (Place.afterAll ⟨s.firstLine, 1⟩ s.text.toList) tail.toList
    rw [htail, List.length_nil, Nat.zero_add] at hlength
    obtain ⟨p, hp⟩ := List.length_eq_one_iff.mp hlength
    have hplaces : (s.extend tail).places = s.places.dropLast ++ [p] := by
      have hfirst : (s.extend tail).firstLine = s.firstLine := rfl
      rw [places, htext, places_append h, hfirst, hp, places]
    rw [hplaces, List.dropLast_concat]
  rw [scan_eq_settle, scan_eq_settle s, hdespliced, hplaces]
  exact settle_congr (show (s.extend tail).file = s.file from rfl) _ _

/-- What is quoted at the places of a source's tokens does not depend on what follows it. -/
theorem EndsLine.quoted (h : s.EndsLine) (hfirst : s.firstLine = 1) {t : Scanned} (ht : t ∈ s.scan)
    (text : String) :
    (Listing.ofText (s.extend text).text).line? t.token.location.line =
        (Listing.ofText s.text).line? t.token.location.line ∧
      (Listing.ofText (s.extend text).text).logicalLine t.token.location.line =
        (Listing.ofText s.text).logicalLine t.token.location.line := by
  obtain ⟨body, tail, hs, hbody, htail⟩ := h.eq_extend (List.ne_nil_of_mem ht)
  generalize hcore : ({ s with text := String.ofList (body ++ ['\n']) } : Source) = core at hs
  have hbodyText : core.text.toList = body ++ ['\n'] := by rw [← hcore, String.toList_ofList]
  have hwhole : WholeLines core.text.toList := hbodyText ▸ .concat body
  obtain ⟨above, last, hlines, hlast⟩ := exists_boundaryLines_lastNewline hbody
  have hline : t.token.location.line ≤ above.length + 1 := by
    rw [hs, scan_extend_splices hwhole htail] at ht
    have hbelow := (line_of_mem_scan ht).2 hwhole
    have hcount := Text.count_le_length_boundaryLines core.text.toList
    rw [hbodyText, hlines, List.length_append, List.length_singleton] at hcount
    have hone : core.firstLine = 1 := by rw [← hcore, hfirst]
    rw [newlines, hbodyText, hone] at hbelow
    omega
  -- Both texts begin with the lines up to `last`, which no line below goes on from.
  have hlisting : ∀ more : String, Listing.ofText (core.extend more).text =
      ⟨above ++ last :: Text.boundaryLines more.toList⟩ := by
    intro more
    have htext : (core.extend more).text.toList = core.text.toList ++ more.toList :=
      String.toList_append
    rw [Listing.ofText, htext, Text.boundaryLines_append hwhole, hbodyText, hlines,
      List.append_assoc, List.singleton_append]
  have hline? : ∀ more : String, (Listing.ofText (core.extend more).text).line?
      t.token.location.line = (Listing.mk (above ++ [last])).line? t.token.location.line := by
    intro more
    rw [hlisting, List.append_cons]
    exact Listing.line?_above (by rw [List.length_append, List.length_singleton]; exact hline)
  have hlogical : ∀ more : String, (Listing.ofText (core.extend more).text).logicalLine
      t.token.location.line =
        (Listing.mk (above ++ [last])).logicalLine t.token.location.line := by
    intro more
    rw [hlisting]
    exact Listing.logicalLine_above hlast hline
  rw [hs, extend_extend, hline?, hline?, hlogical, hlogical]
  exact ⟨rfl, rfl⟩

end Source

end CPreprocessor
