import CPreprocessor.Proofs.Source.Append

/-!
# Quoted lines

What a diagnostic quotes from a line depends on no line beyond one that does not go on in the next.
-/

namespace CPreprocessor

namespace Text

theorem newlineLines_ne_nil (u : List Char) : newlineLines u ≠ [] := by
  cases u with
  | nil => exact nofun
  | cons c u =>
    rw [newlineLines]
    split
    · exact nofun
    split
    · exact nofun
    · exact nofun

theorem length_newlineLines (u : List Char) : (newlineLines u).length = u.count '\n' + 1 := by
  induction u with
  | nil => rfl
  | cons c u ih =>
    rw [newlineLines, List.count_cons]
    split
    · rename_i hc
      rw [List.length_cons, ih, hc]
      rfl
    · rename_i hc
      rw [if_neg (by simpa using hc)]
      cases hlines : newlineLines u with
      | nil => exact absurd hlines (newlineLines_ne_nil u)
      | cons line lines =>
        rw [← ih, hlines]
        rfl

theorem newlineLines_append {u : List Char} (h : WholeLines u) (v : List Char) :
    newlineLines (u ++ v) = (newlineLines u).dropLast ++ newlineLines v := by
  induction u with
  | nil => rfl
  | cons c u ih =>
    have ih := ih h.tail
    by_cases hc : c = '\n'
    · subst hc
      rw [List.cons_append, newlineLines, if_pos rfl, ih, newlineLines, if_pos rfl,
        List.dropLast_cons_of_ne_nil (newlineLines_ne_nil u), List.cons_append]
    · rw [List.cons_append, newlineLines, if_neg hc, ih, newlineLines, if_neg hc]
      have hlength := length_newlineLines u
      have hpos := List.count_pos_iff.mpr (h.tail.newline_mem fun hu => hc (by
        rw [hu] at h
        exact h.singleton))
      match newlineLines u, hlength with
      | [], hlength => cases hlength
      | [line], hlength =>
        rw [List.length_singleton] at hlength
        omega
      | line :: line' :: lines, hlength => rfl

theorem boundaryLinesFrom_cons {c : Char} {cs : List Char}
    (h : ∀ ds, c = '\r' → cs = '\n' :: ds → False) (line : List Char) :
    boundaryLinesFrom line (c :: cs) =
      if isLineBoundary c then line.reverse :: boundaryLinesFrom [] cs
      else boundaryLinesFrom (c :: line) cs := by
  rw [boundaryLinesFrom.eq_def]
  split
  · rename_i heq
    cases heq
  · rename_i ds heq
    cases heq
    exact (h ds rfl rfl).elim
  · rename_i heq
    cases heq
    rfl

theorem boundaryLinesFrom_append {u line : List Char} (h : WholeLines u)
    (hline : u = [] → line = []) (v : List Char) :
    boundaryLinesFrom line (u ++ v) = boundaryLinesFrom line u ++ boundaryLines v := by
  have hpair : ∀ {c : Char} {cs : List Char}, WholeLines (c :: cs) →
      (∀ ds, c = '\r' → cs = '\n' :: ds → False) →
        ∀ ds, c = '\r' → cs ++ v = '\n' :: ds → False := by
    rintro c cs h hreturn ds rfl hds
    cases cs with
    | nil => cases h.singleton
    | cons d cs =>
      obtain ⟨rfl, -⟩ := List.cons.inj hds
      exact hreturn cs rfl rfl
  fun_induction boundaryLinesFrom line u with
  | case1 line =>
    rw [hline rfl]
    rfl
  | case2 line hnonempty =>
    rw [hline rfl] at hnonempty
    exact absurd rfl hnonempty
  | case3 line cs ih => exact congrArg (line.reverse :: ·) (ih h.tail.tail fun _ => rfl)
  | case4 line c cs hreturn hboundary ih =>
    have ih := ih h.tail fun _ => rfl
    rw [List.cons_append, boundaryLinesFrom_cons (hpair h hreturn), if_pos hboundary, ih,
      List.cons_append]
  | case5 line c cs hreturn hboundary ih =>
    rw [List.cons_append, boundaryLinesFrom_cons (hpair h hreturn), if_neg hboundary]
    refine ih h.tail fun hcs => ?_
    rw [hcs] at h
    rw [h.singleton] at hboundary
    exact absurd rfl hboundary

theorem boundaryLines_append {u : List Char} (h : WholeLines u) (v : List Char) :
    boundaryLines (u ++ v) = boundaryLines u ++ boundaryLines v :=
  boundaryLinesFrom_append h (fun _ => rfl) v

/-- Whether the newline is the only line boundary in a text. -/
def OnlyNewlines (u : List Char) : Prop := ∀ c ∈ u, isLineBoundary c = true → c = '\n'

instance (u : List Char) : Decidable (OnlyNewlines u) :=
  decidable_of_iff (u.all fun c => !isLineBoundary c || c == '\n') (by
    simp only [OnlyNewlines, List.all_eq_true, Bool.or_eq_true, Bool.not_eq_true', beq_iff_eq,
      ← Bool.not_eq_true, Decidable.imp_iff_not_or])

theorem length_boundaryLinesFrom {u line : List Char} (h : WholeLines u)
    (hline : u = [] → line = []) (honly : OnlyNewlines u) :
    (boundaryLinesFrom line u).length = u.count '\n' := by
  fun_induction boundaryLinesFrom line u with
  | case1 => rfl
  | case2 line hnonempty =>
    rw [hline rfl] at hnonempty
    exact absurd rfl hnonempty
  | case3 line cs ih => cases honly '\r' List.mem_cons_self rfl
  | case4 line c cs hreturn hboundary ih =>
    have hc := honly c List.mem_cons_self hboundary
    subst hc
    rw [List.length_cons, List.count_cons_self,
      ih h.tail (fun _ => rfl) fun d hd => honly d (List.mem_cons_of_mem _ hd)]
  | case5 line c cs hreturn hboundary ih =>
    have hc : c ≠ '\n' := by
      rintro rfl
      exact hboundary rfl
    rw [List.count_cons_of_ne hc]
    refine ih h.tail (fun hcs => ?_) fun d hd => honly d (List.mem_cons_of_mem _ hd)
    rw [hcs] at h
    exact absurd h.singleton hc

theorem count_le_length_boundaryLines (u : List Char) :
    u.count '\n' ≤ (boundaryLines u).length := by
  have hfrom : ∀ line : List Char, u.count '\n' ≤ (boundaryLinesFrom line u).length := by
    intro line
    fun_induction boundaryLinesFrom line u with
    | case1 => exact Nat.zero_le _
    | case2 => exact Nat.zero_le _
    | case3 line cs ih =>
      rw [List.count_cons_of_ne (by decide), List.count_cons_self, List.length_cons]
      omega
    | case4 line c cs hreturn hboundary ih =>
      rw [List.count_cons, List.length_cons]
      split
      · omega
      · omega
    | case5 line c cs hreturn hboundary ih =>
      have hc : c ≠ '\n' := by
        rintro rfl
        exact hboundary rfl
      rwa [List.count_cons_of_ne hc]
  exact hfrom []

theorem length_boundaryLines {u : List Char} (h : WholeLines u) (honly : OnlyNewlines u) :
    (boundaryLines u).length = u.count '\n' :=
  length_boundaryLinesFrom h (fun _ => rfl) honly

end Text

/-! ## Lines of a listing -/

namespace Listing

variable {above below : List (List Char)} {line : List Char} {number : Int}

theorem line?_above (h : number ≤ above.length) :
    (Listing.mk (above ++ below)).line? number = (Listing.mk above).line? number := by
  unfold line?
  split
  · rw [List.getElem?_append_left (by omega)]
  · rfl

theorem line?_below (h : above.length < number) :
    (Listing.mk (above ++ below)).line? number =
      (Listing.mk below).line? (number - above.length) := by
  unfold line?
  rw [if_pos (by omega), if_pos (by omega), List.getElem?_append_right (by omega)]
  congr 1
  omega

theorem joined_append (hline : continues line = false) (lines : List (List Char)) :
    joined (above ++ line :: lines) = joined (above ++ [line]) := by
  induction above with
  | nil =>
    rw [List.nil_append, joined, hline, List.nil_append, joined, hline]
    rfl
  | cons l above ih => rw [List.cons_append, joined, ih, List.cons_append, joined]

/-- A line that does not go on in the next one ends what is seen from above. -/
theorem logicalLine_above (hline : continues line = false) (h : number ≤ above.length + 1) :
    (Listing.mk (above ++ line :: below)).logicalLine number =
      (Listing.mk (above ++ [line])).logicalLine number := by
  have happend : above ++ line :: below = (above ++ [line]) ++ below := by simp
  have hlength : (above ++ [line]).length = above.length + 1 := by simp
  have hline? : (Listing.mk (above ++ line :: below)).line? number =
      (Listing.mk (above ++ [line])).line? number := by
    rw [happend]
    exact line?_above (by omega)
  unfold logicalLine
  rw [hline?]
  split
  · rfl
  · have hindex : (number - 1).toNat ≤ above.length := by omega
    simp only
    rw [List.take_append_of_le_length hindex, List.take_append_of_le_length hindex,
      List.drop_append_of_le_length (by omega), List.drop_append_of_le_length (by omega),
      joined_append hline]

theorem takeWhile_reverse_append {p : List Char → Bool} (hline : p line = false)
    (ls ms : List (List Char)) :
    (ls ++ line :: ms).reverse.takeWhile p = ms.reverse.takeWhile p := by
  rw [List.reverse_append, List.reverse_cons, List.append_assoc, List.singleton_append]
  induction ms.reverse with
  | nil => exact List.takeWhile_cons_of_neg (by simp [hline])
  | cons l ms ih => rw [List.cons_append, List.takeWhile_cons, List.takeWhile_cons, ih]

theorem joined_bare (h : ∀ l ∈ above, l = ['\\']) (lines : List (List Char)) :
    joined (above ++ lines) = joined lines := by
  induction above with
  | nil => rfl
  | cons l above ih =>
    obtain ⟨rfl, habove⟩ := List.forall_mem_cons.mp h
    rw [List.cons_append, joined, ih habove]
    rfl

/-- What is seen from below goes on from no line above but, at most, ones that are nothing else. -/
theorem logicalLine_below (h : ∀ l ∈ above.reverse.takeWhile continues, l = ['\\'])
    (hnumber : above.length < number) :
    (Listing.mk (above ++ below)).logicalLine number =
      (Listing.mk below).logicalLine (number - above.length) := by
  obtain ⟨index, hindex⟩ : ∃ index : Nat, number = above.length + index + 1 :=
    ⟨(number - above.length - 1).toNat, by omega⟩
  have habove : (number - 1).toNat = above.length + index := by omega
  have hbelow : (number - above.length - 1).toNat = index := by omega
  unfold logicalLine
  rw [line?_below hnumber]
  split
  · rfl
  · rename_i line hline
    have hlt : index < below.length := by
      unfold line? at hline
      rw [if_pos (by omega), hbelow] at hline
      exact (List.getElem?_eq_some_iff.mp hline).1
    have hlength : (below.take index).reverse.length = index := by
      rw [List.length_reverse, List.length_take]
      omega
    simp only [habove, hbelow, List.take_length_add_append, List.reverse_append]
    rw [List.takeWhile_append, hlength]
    split
    · rename_i hall
      have hsplit : above = (above.reverse.dropWhile continues).reverse ++
          (above.reverse.takeWhile continues).reverse := by
        rw [← List.reverse_append, List.takeWhile_append_dropWhile, List.reverse_reverse]
      rw [hall, Nat.sub_self, List.drop_zero, List.length_append, hlength]
      generalize above.reverse.takeWhile continues = bare at h hsplit ⊢
      generalize above.reverse.dropWhile continues = others at hsplit
      have hstart : above.length + index - (index + bare.length) = others.reverse.length := by
        rw [hsplit, List.length_append, List.length_reverse, List.length_reverse]
        omega
      rw [hstart, hsplit, List.append_assoc, List.drop_left,
        joined_bare fun l hl => h l (List.mem_reverse.mp hl)]
    · have hle : ((below.take index).reverse.takeWhile continues).length ≤ index := by
        have := (List.takeWhile_sublist continues (l := (below.take index).reverse)).length_le
        omega
      rw [Nat.add_sub_assoc hle, List.drop_length_add_append]

end Listing

/-! ## Lines by newlines -/

namespace Source

variable {s s' : Source} {t : Scanned} {number : Int}

/-- What is reported of a token depends on the text of its line only. -/
theorem reportOf?_congr (h : s.lineText t.token.location.line = s'.lineText t.token.location.line) :
    s.reportOf? t = s'.reportOf? t := by
  have hreport : s.report t.token.location = s'.report t.token.location := by
    funext fault
    rw [report, h, report]
  rw [reportOf?, hreport, reportOf?]

theorem lineText_above (h : WholeLines s.text.toList) (hfirst : s.firstLine ≤ number)
    (hnumber : number < s.firstLine + s.newlines) (text : String) :
    (s.extend text).lineText number = s.lineText number := by
  have hindex : (number - s.firstLine).toNat < (Text.newlineLines s.text.toList).dropLast.length := by
    rw [List.length_dropLast, Text.length_newlineLines]
    unfold newlines at hnumber
    omega
  simp only [lineText, extend, String.toList_append, Text.newlineLines_append h]
  rw [List.getElem?_append_left hindex, List.dropLast_eq_take, List.getElem?_take_of_lt]
  rwa [List.length_dropLast] at hindex

theorem lineText_below (h : WholeLines s.text.toList)
    (hnumber : s.firstLine + s.newlines ≤ number) (text : String) :
    (s.extend text).lineText number = (s.following text).lineText number := by
  have hlength : (Text.newlineLines s.text.toList).dropLast.length = s.newlines := by
    rw [List.length_dropLast, Text.length_newlineLines, Nat.add_sub_cancel, newlines]
  have hindex : (number - s.firstLine).toNat - s.newlines =
      (number - (s.firstLine + s.newlines)).toNat := by omega
  simp only [lineText, extend, String.toList_append, Text.newlineLines_append h, following]
  rw [List.getElem?_append_right (by omega), hlength, hindex]

end Source

end CPreprocessor
