import CPreprocessor.Directive.Line
import CPreprocessor.Proofs.Source.Lexeme

/-!
# Sources joined at a line end

A source whose last token is a line end may be read apart from what follows it: the tokens and the
logical lines of the whole are those of the two parts, with the second part in its place
(`Source.logicalLines_extend`).
-/

namespace CPreprocessor

/-- Whether a text is empty or ends with a newline. -/
def WholeLines (u : List Char) : Prop := ∀ c ∈ u.getLast?, c = '\n'

namespace WholeLines

variable {c : Char} {u v : List Char}

theorem nil : WholeLines [] := nofun

theorem cons (h : WholeLines u) (hc : u = [] → c = '\n') : WholeLines (c :: u) := by
  cases u with
  | nil =>
    rintro d ⟨⟩
    exact hc rfl
  | cons d u =>
    intro last hlast
    exact h last (by rwa [List.getLast?_cons_cons] at hlast)

theorem tail (h : WholeLines (c :: u)) : WholeLines u := by
  cases u with
  | nil => exact nil
  | cons d u =>
    intro last hlast
    exact h last (by rwa [List.getLast?_cons_cons])

theorem singleton (h : WholeLines [c]) : c = '\n' := h c rfl

theorem newline_mem (h : WholeLines u) (hne : u ≠ []) : '\n' ∈ u := by
  cases hlast : u.getLast? with
  | none => exact absurd (List.getLast?_eq_none_iff.mp hlast) hne
  | some c =>
    obtain rfl := h c hlast
    exact List.mem_of_getLast? hlast

theorem append (hu : WholeLines u) (hv : WholeLines v) : WholeLines (u ++ v) := by
  induction u with
  | nil => exact hv
  | cons c u ih =>
    refine (ih hu.tail).cons fun hnil => ?_
    obtain ⟨rfl, rfl⟩ := List.append_eq_nil_iff.mp hnil
    exact hu.singleton

theorem concat (u : List Char) : WholeLines (u ++ ['\n']) := by
  intro c hc
  rw [List.getLast?_concat] at hc
  exact (Option.some.inj hc).symm

/-- The last line of a text, and the lines above it. -/
theorem eq_append (h : WholeLines u) (hne : u ≠ []) :
    ∃ above line, u = above ++ (line ++ ['\n']) ∧ WholeLines above ∧ '\n' ∉ line := by
  induction u with
  | nil => exact absurd rfl hne
  | cons c u ih =>
    by_cases hu : u = []
    · subst hu
      rw [h.singleton]
      exact ⟨[], [], rfl, .nil, nofun⟩
    · obtain ⟨above, line, rfl, habove, hline⟩ := ih h.tail hu
      by_cases hc : above = [] ∧ c ≠ '\n'
      · obtain ⟨rfl, hc⟩ := hc
        refine ⟨[], c :: line, rfl, .nil, fun hmem => ?_⟩
        rcases List.mem_cons.mp hmem with heq | hmem
        · exact hc heq.symm
        · exact hline hmem
      · refine ⟨c :: above, line, rfl, habove.cons fun hnil => ?_, hline⟩
        exact Decidable.byContradiction fun hne => hc ⟨hnil, hne⟩

end WholeLines

/-! ## Splices and places -/

section
variable {c : Char} {u : List Char}

/-- A splice does not begin in whole lines and end after them. -/
theorem WholeLines.not_splice (h : WholeLines (c :: u))
    (hsplice : ∀ cs, c = '\\' → u = '\n' :: cs → False) (v cs : List Char) (hc : c = '\\')
    (hcs : u ++ v = '\n' :: cs) : False := by
  subst hc
  cases u with
  | nil => cases h.singleton
  | cons d u =>
    obtain ⟨rfl, -⟩ := List.cons.inj hcs
    exact hsplice u rfl rfl

theorem WholeLines.not_returnSplice (h : WholeLines (c :: u))
    (hsplice : ∀ cs, c = '\\' → u = '\r' :: '\n' :: cs → False) (v cs : List Char) (hc : c = '\\')
    (hcs : u ++ v = '\r' :: '\n' :: cs) : False := by
  subst hc
  cases u with
  | nil => cases h.singleton
  | cons d u =>
    obtain ⟨rfl, hafter⟩ := List.cons.inj hcs
    cases u with
    | nil => cases h.tail.singleton
    | cons e u =>
      obtain ⟨rfl, -⟩ := List.cons.inj hafter
      exact hsplice u rfl rfl

theorem despliced_append (h : WholeLines u) (v : List Char) :
    despliced (u ++ v) = despliced u ++ despliced v := by
  fun_induction despliced u with
  | case1 => rfl
  | case2 cs ih => exact ih h.tail.tail
  | case3 cs ih => exact ih h.tail.tail.tail
  | case4 c cs hsplice hreturn ih =>
    rw [List.cons_append, despliced, ih h.tail, List.cons_append]
    · exact h.not_splice hsplice v
    · exact h.not_returnSplice hreturn v

theorem WholeLines.of_despliced (h : WholeLines (despliced u)) : WholeLines u := by
  fun_induction despliced u with
  | case1 => exact .nil
  | case2 cs ih =>
    exact ((ih h).cons fun _ => rfl).cons fun hnil => absurd hnil (List.cons_ne_nil _ _)
  | case3 cs ih =>
    exact (((ih h).cons fun _ => rfl).cons fun hnil => absurd hnil (List.cons_ne_nil _ _)).cons
      fun hnil => absurd hnil (List.cons_ne_nil _ _)
  | case4 c cs hsplice hreturn ih =>
    refine (ih h.tail).cons ?_
    rintro rfl
    exact h.singleton

theorem places_ne_nil {p : Place} : places p u ≠ [] := by
  intro h
  have := length_places p u
  rw [h] at this
  cases this

/-- The place of the end of a text that begins at `p`. -/
def Place.afterAll (p : Place) (u : List Char) : Place := u.foldl after p

theorem places_append (h : WholeLines u) (p : Place) (v : List Char) :
    places p (u ++ v) = (places p u).dropLast ++ places (p.afterAll u) v := by
  fun_induction places p u with
  | case1 p => rfl
  | case2 p cs ih => exact ih h.tail.tail
  | case3 p cs ih => exact ih h.tail.tail.tail
  | case4 p c cs hsplice hreturn ih =>
    rw [List.cons_append, places, ih h.tail, List.dropLast_cons_of_ne_nil places_ne_nil]
    · rfl
    · exact h.not_splice hsplice v
    · exact h.not_returnSplice hreturn v

theorem Place.line_afterAll (p : Place) (u : List Char) :
    (p.afterAll u).line = p.line + u.count '\n' := by
  induction u generalizing p with
  | nil => simp [afterAll]
  | cons c u ih =>
    have h := ih (p.after c)
    unfold afterAll at h ⊢
    rw [List.foldl_cons, h, List.count_cons, after]
    by_cases hc : c = '\n'
    · subst hc
      simp only [if_pos, nextLine, beq_self_eq_true]
      omega
    · rw [if_neg hc, if_neg (by simpa using hc), Nat.add_zero]

/-- After whole lines a new one begins. -/
theorem Place.afterAll_wholeLines (h : WholeLines u) (line : Int) :
    Place.afterAll ⟨line, 1⟩ u = ⟨line + u.count '\n', 1⟩ := by
  have hcolumn : ∀ p : Place, p.column = 1 ∨ u ≠ [] → (p.afterAll u).column = 1 := by
    induction u with
    | nil => exact fun p hp => hp.resolve_right (fun hne => hne rfl)
    | cons c u ih =>
      intro p _
      refine ih h.tail (p.after c) ?_
      by_cases hu : u = []
      · subst hu
        rw [h.singleton]
        exact .inl rfl
      · exact .inr hu
  have hline := Place.line_afterAll ⟨line, 1⟩ u
  have hcolumn := hcolumn ⟨line, 1⟩ (.inl rfl)
  generalize Place.afterAll ⟨line, 1⟩ u = q at hline hcolumn
  obtain ⟨l, k⟩ := q
  simp_all

theorem line_le_of_mem_places {p q : Place} (h : q ∈ places p u) : p.line ≤ q.line := by
  fun_induction places p u with
  | case1 p =>
    obtain rfl := List.mem_singleton.mp h
    exact Int.le_refl _
  | case2 p cs ih => exact Int.le_trans (Int.le_add_of_nonneg_right (by decide)) (ih h)
  | case3 p cs ih => exact Int.le_trans (Int.le_add_of_nonneg_right (by decide)) (ih h)
  | case4 p c cs hsplice hreturn ih =>
    rcases List.mem_cons.mp h with rfl | h
    · exact Int.le_refl _
    · refine Int.le_trans ?_ (ih h)
      unfold Place.after
      split
      · exact Int.le_add_of_nonneg_right (by decide)
      · exact Int.le_refl _

/-- The characters of whole lines stand before the line that comes next. -/
theorem lt_line_of_mem_places {p q : Place} (h : WholeLines u) (hq : q ∈ (places p u).dropLast) :
    q.line < p.line + u.count '\n' := by
  fun_induction places p u with
  | case1 p => cases hq
  | case2 p cs ih =>
    have := ih h.tail.tail hq
    simp only [Place.nextLine, List.count_cons_self, List.count_cons_of_ne (by decide : '\\' ≠ '\n')]
      at this ⊢
    omega
  | case3 p cs ih =>
    have := ih h.tail.tail.tail hq
    simp only [Place.nextLine, List.count_cons_self, List.count_cons_of_ne (by decide : '\\' ≠ '\n'),
      List.count_cons_of_ne (by decide : '\r' ≠ '\n')] at this ⊢
    omega
  | case4 p c cs hsplice hreturn ih =>
    rw [List.dropLast_cons_of_ne_nil places_ne_nil] at hq
    rcases List.mem_cons.mp hq with rfl | hq
    · have := List.count_pos_iff.mpr (h.newline_mem (by simp))
      omega
    · have := ih h.tail hq
      rw [List.count_cons]
      unfold Place.after at this
      by_cases hc : c = '\n'
      · subst hc
        simp only [if_pos, Place.nextLine, beq_self_eq_true] at this ⊢
        omega
      · rw [if_neg hc] at this
        rw [if_neg (by simpa using hc)]
        simpa using this

end

/-! ## Tokens -/

theorem text_ne_nil {u : List Char} {l : Lexeme} (h : l ∈ lexemes u) : l.text ≠ [] := by
  fun_induction lexemes u with
  | case1 => cases h
  | case2 c cs kind n hfirst ih =>
    rcases List.mem_cons.mp h with rfl | h
    · exact List.cons_ne_nil _ _
    · exact ih h
  | case3 c cs cause hfirst n ih =>
    rcases List.mem_cons.mp h with rfl | h
    · exact List.cons_ne_nil _ _
    · exact ih h

/-- The kind of the token of a lexeme. -/
def Lexeme.kind : Lexeme → Kind
  | token kind _ => kind
  | fault _ _ => .whitespace

namespace Source

variable {s : Source} {ls ls' : List Lexeme} {ps ps' : List Place}

theorem settle_nil_places (s : Source) (ls : List Lexeme) : s.settle ls [] = [] := by
  cases ls with
  | nil => rfl
  | cons l ls => rfl

theorem settle_congr {s s' : Source} (h : s.file = s'.file) (ls : List Lexeme) (ps : List Place) :
    s.settle ls ps = s'.settle ls ps := by
  induction ls generalizing ps with
  | nil => rfl
  | cons l ls ih =>
    cases ps with
    | nil => rfl
    | cons p ps =>
      rw [settle, settle, ih]
      cases l with
      | token kind text => simp only [token, locate, h]
      | fault cause skipped => simp only [token, locate, h]

theorem settle_append (s : Source) (ls ls' : List Lexeme) (ps : List Place) :
    s.settle (ls ++ ls') ps =
      s.settle ls ps ++ s.settle ls' (ps.drop (ls.flatMap Lexeme.text).length) := by
  induction ls generalizing ps with
  | nil => rfl
  | cons l ls ih =>
    cases ps with
    | nil => simp [settle_nil_places]
    | cons p ps =>
      rw [List.cons_append, settle, ih, settle, List.cons_append, List.drop_drop, List.flatMap_cons,
        List.length_append]

/-- Only as many places count as there are characters. -/
theorem settle_take (s : Source) (ps : List Place) (h : ∀ l ∈ ls, l.text ≠ []) :
    s.settle ls (ps.take (ls.flatMap Lexeme.text).length) = s.settle ls ps := by
  induction ls generalizing ps with
  | nil => rfl
  | cons l ls ih =>
    obtain ⟨hl, hls⟩ := List.forall_mem_cons.mp h
    obtain ⟨n, hn⟩ := Nat.exists_eq_succ_of_ne_zero (mt List.length_eq_zero_iff.mp hl)
    cases ps with
    | nil => simp
    | cons p ps =>
      have hlength : ((l :: ls).flatMap Lexeme.text).length =
          n + (ls.flatMap Lexeme.text).length + 1 := by
        rw [List.flatMap_cons, List.length_append]
        omega
      rw [hlength, List.take_succ_cons, settle, settle, hn, List.drop_succ_cons, List.drop_succ_cons,
        List.drop_take, Nat.add_sub_cancel_left, ih _ hls]

/-- What a token shows of its lexeme, whatever its place, can be told from the lexemes. -/
theorem map_settle {α : Type} {f : Scanned → α} {g : Lexeme → α}
    (hfg : ∀ p l, f (s.token p l) = g l) (h : ∀ l ∈ ls, l.text ≠ [])
    (hlength : (ls.flatMap Lexeme.text).length ≤ ps.length) :
    (s.settle ls ps).map f = ls.map g := by
  induction ls generalizing ps with
  | nil => rfl
  | cons l ls ih =>
    obtain ⟨hl, hls⟩ := List.forall_mem_cons.mp h
    rw [List.flatMap_cons, List.length_append] at hlength
    cases ps with
    | nil =>
      rw [List.length_nil] at hlength
      exact absurd (List.length_eq_zero_iff.mp (by omega)) hl
    | cons p ps =>
      rw [settle, List.map_cons, List.map_cons, ih hls (by rw [List.length_drop]; omega), hfg]

theorem length_flatMap_text (u : List Char) :
    ((lexemes u).flatMap Lexeme.text).length = u.length := by
  rw [flatMap_text_lexemes]

theorem map_scan (s : Source) {α : Type} {f : Scanned → α} {g : Lexeme → α}
    (hfg : ∀ p l, f (s.token p l) = g l) :
    s.scan.map f = (CPreprocessor.lexemes (CPreprocessor.despliced s.text.toList)).map g := by
  refine map_settle hfg (fun l hl => text_ne_nil hl) ?_
  rw [length_flatMap_text, places, length_places]
  exact Nat.le_succ _

/-- Whether the last token of a source, if there is any, is a line end. -/
def EndsLine (s : Source) : Prop := ∀ t ∈ s.scan.getLast?, t.token.kind = .newline

theorem EndsLine.lexemes (h : s.EndsLine) :
    CPreprocessor.EndsLine (lexemes (despliced s.text.toList)) := by
  have hkinds := s.map_scan (f := fun t => t.token.kind) (g := Lexeme.kind) fun p l => by cases l <;> rfl
  intro l hl
  have hlast := congrArg List.getLast? hkinds
  rw [List.getLast?_map, List.getLast?_map, hl] at hlast
  obtain ⟨t, ht, heq⟩ := Option.map_eq_some_iff.mp hlast
  rw [h t ht] at heq
  cases l with
  | token kind text =>
    obtain rfl : Kind.newline = kind := heq
    exact ⟨text, rfl⟩
  | fault cause skipped => cases heq

theorem EndsLine.despliced (h : s.EndsLine) :
    WholeLines (CPreprocessor.despliced s.text.toList) := by
  intro c hc
  have hne : CPreprocessor.despliced s.text.toList ≠ [] := by
    intro hnil
    rw [hnil] at hc
    cases hc
  rw [h.lexemes.getLast? hne] at hc
  exact (Option.some.inj hc).symm

theorem EndsLine.wholeLines (h : s.EndsLine) : WholeLines s.text.toList :=
  .of_despliced h.despliced

/-- How many lines a source has above what follows it. -/
def newlines (s : Source) : Nat := s.text.toList.count '\n'

/-- A source with more text at its end. -/
def extend (s : Source) (text : String) : Source := { s with text := s.text ++ text }

/-- A text in the place after a source. -/
def following (s : Source) (text : String) : Source :=
  { s with text, firstLine := s.firstLine + s.newlines }

theorem length_dropLast_places (s : Source) :
    ((CPreprocessor.lexemes (despliced s.text.toList)).flatMap Lexeme.text).length =
      s.places.dropLast.length := by
  rw [length_flatMap_text, List.length_dropLast, places, length_places, Nat.add_sub_cancel]

/-- Tokens stand where characters do, not at the end. -/
theorem scan_eq_settle (s : Source) :
    s.scan = s.settle (CPreprocessor.lexemes (despliced s.text.toList)) s.places.dropLast := by
  rw [scan, ← settle_take s s.places fun l hl => text_ne_nil hl, length_dropLast_places,
    List.length_dropLast, ← List.dropLast_eq_take]

theorem places_extend (h : s.EndsLine) (text : String) :
    (s.extend text).places = s.places.dropLast ++ (s.following text).places := by
  have htext : (s.extend text).text.toList = s.text.toList ++ text.toList := String.toList_append
  rw [places, htext, places_append h.wholeLines, Place.afterAll_wholeLines h.wholeLines]
  rfl

theorem scan_extend (h : s.EndsLine) (text : String) :
    (s.extend text).scan = s.scan ++ (s.following text).scan := by
  have htext : (s.extend text).text.toList = s.text.toList ++ text.toList := String.toList_append
  have htake : ∀ s' : Source, ∀ qs, s'.settle (CPreprocessor.lexemes (despliced s.text.toList))
      (s.places.dropLast ++ qs) =
        s'.settle (CPreprocessor.lexemes (despliced s.text.toList)) s.places.dropLast := by
    intro s' qs
    rw [← settle_take s' _ fun l hl => text_ne_nil hl, length_dropLast_places, List.take_left]
  rw [scan, places_extend h, htext, despliced_append h.wholeLines, lexemes_append h.lexemes,
    settle_append, length_dropLast_places, List.drop_left, htake, scan_eq_settle s]
  congr 1
  · apply settle_congr
    rfl
  · apply settle_congr
    rfl

theorem EndsLine.extend (h : s.EndsLine) {text : String} (h' : (s.following text).EndsLine) :
    (s.extend text).EndsLine := by
  intro t ht
  rw [scan_extend h, List.getLast?_append] at ht
  cases hlast : (s.following text).scan.getLast? with
  | some t' =>
    rw [hlast, Option.some_or] at ht
    exact h' t (by rw [hlast]; exact ht)
  | none =>
    rw [hlast, Option.none_or] at ht
    exact h t ht

theorem newlines_extend (s : Source) (text : String) :
    (s.extend text).newlines = s.newlines + text.toList.count '\n' := by
  rw [newlines, extend, String.toList_append, List.count_append]
  rfl

theorem extend_extend (s : Source) (text text' : String) :
    (s.extend text).extend text' = s.extend (text ++ text') := by
  rw [extend, extend, extend, String.append_assoc]

theorem location_token (s : Source) (p : Place) (l : Lexeme) :
    (s.token p l).token.location = s.locate p := by
  cases l with
  | token kind text => rfl
  | fault cause skipped => rfl

theorem exists_of_mem_settle {t : Scanned} (h : t ∈ s.settle ls ps) :
    ∃ l ∈ ls, ∃ p ∈ ps, t = s.token p l := by
  induction ls generalizing ps with
  | nil => cases h
  | cons l ls ih =>
    cases ps with
    | nil => cases h
    | cons p ps =>
      rcases List.mem_cons.mp h with rfl | h
      · exact ⟨l, List.mem_cons_self, p, List.mem_cons_self, rfl⟩
      · obtain ⟨l', hl, q, hq, heq⟩ := ih h
        exact ⟨l', List.mem_cons_of_mem l hl, q, List.mem_of_mem_drop hq, heq⟩

theorem line_of_mem_scan {t : Scanned} (h : t ∈ s.scan) :
    s.firstLine ≤ t.token.location.line ∧
      (WholeLines s.text.toList → t.token.location.line < s.firstLine + s.newlines) := by
  rw [scan_eq_settle] at h
  obtain ⟨l, -, p, hp, rfl⟩ := exists_of_mem_settle h
  rw [location_token]
  exact ⟨line_le_of_mem_places (List.dropLast_subset _ hp),
    fun hwhole => lt_line_of_mem_places hwhole hp⟩

end Source

/-! ## Logical lines -/

theorem linesFrom_append {line ts : List Scanned} (hline : ts = [] → line = [])
    (h : ∀ t ∈ ts.getLast?, t.token.kind = .newline) (ts' : List Scanned) :
    linesFrom line (ts ++ ts') = linesFrom line ts ++ linesFrom [] ts' := by
  induction ts generalizing line with
  | nil =>
    rw [hline rfl]
    rfl
  | cons t ts ih =>
    have htail : ∀ u ∈ ts.getLast?, u.token.kind = .newline := by
      intro last hlast
      cases ts with
      | nil => cases hlast
      | cons u ts => exact h last (by rwa [List.getLast?_cons_cons])
    rw [List.cons_append, linesFrom, linesFrom]
    split
    · rw [ih (fun _ => rfl) htail, List.cons_append]
    · rename_i hkind
      refine ih (fun hnil => ?_) htail
      subst hnil
      exact absurd (h t List.getLast?_singleton) hkind

theorem mem_of_mem_linesFrom {line ts : List Scanned} {l : List Scanned} {t : Scanned}
    (hl : l ∈ linesFrom line ts) (ht : t ∈ l) : t ∈ line ∨ t ∈ ts := by
  induction ts generalizing line with
  | nil =>
    rw [linesFrom] at hl
    split at hl
    · cases hl
    · rw [List.mem_singleton.mp hl, List.mem_reverse] at ht
      exact .inl ht
  | cons u ts ih =>
    rw [linesFrom] at hl
    split at hl
    · rcases List.mem_cons.mp hl with rfl | hl
      · rw [List.mem_reverse, List.mem_cons] at ht
        rcases ht with rfl | ht
        · exact .inr List.mem_cons_self
        · exact .inl ht
      · rcases ih hl with ht | ht
        · cases ht
        · exact .inr (List.mem_cons_of_mem u ht)
    · rcases ih hl with ht | ht
      · rcases List.mem_cons.mp ht with rfl | ht
        · exact .inr List.mem_cons_self
        · exact .inl ht
      · exact .inr (List.mem_cons_of_mem u ht)

namespace Source

variable {s : Source}

/-- The logical lines of a source and of what follows it. -/
theorem logicalLines_extend (h : s.EndsLine) (text : String) :
    (s.extend text).logicalLines = s.logicalLines ++ (s.following text).logicalLines := by
  rw [logicalLines, scan_extend h, linesFrom_append (fun _ => rfl) h]
  rfl

theorem mem_scan_of_mem_logicalLines {line : List Scanned} {t : Scanned}
    (hline : line ∈ s.logicalLines) (ht : t ∈ line) : t ∈ s.scan :=
  (mem_of_mem_linesFrom hline ht).resolve_left nofun

end Source

end CPreprocessor
