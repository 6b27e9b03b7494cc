import CPreprocessor.Proofs.Source.Quotation
import CPreprocessor.Proofs.Text.Span

/-!
# Lines by newlines and by every boundary

A listing counts lines by every line boundary, a source counts them by newlines. Where both counts are the
same above a line, the listing gives the text of the line up to its first boundary, so all of it exactly
if there is none in it (`Source.line?_eq_lineText_iff`).
-/

namespace CPreprocessor

variable {u v line : List Char} {lines : List (List Char)}

namespace Text

/-- The first line of a text by newlines. -/
theorem head?_newlineLines (u : List Char) :
    (newlineLines u).head? = some (u.takeWhile (· ≠ '\n')) := by
  induction u with
  | nil => rfl
  | cons c u ih =>
    rw [newlineLines, List.takeWhile_cons]
    by_cases hc : c = '\n'
    · rw [if_pos hc, if_neg (by simpa using hc)]
      rfl
    · rw [if_neg hc, if_pos (by simpa using hc)]
      split
      · rename_i hnil
        exact absurd hnil (newlineLines_ne_nil u)
      · rename_i hcons
        rw [hcons] at ih
        rw [Option.some.inj ih]
        rfl

/-- The first line of a text by every boundary. -/
theorem head?_boundaryLinesFrom (h : (boundaryLinesFrom line u).head? = some v) :
    v = line.reverse ++ u.takeWhile (!isLineBoundary ·) := by
  fun_induction boundaryLinesFrom line u with
  | case1 => cases h
  | case2 =>
    cases h
    exact (List.append_nil _).symm
  | case3 =>
    cases h
    exact (List.append_nil _).symm
  | case4 line c cs hreturn hboundary ih =>
    cases h
    rw [List.takeWhile_cons_of_neg (by simpa using hboundary), List.append_nil]
  | case5 line c cs hreturn hboundary ih =>
    rw [ih h, List.takeWhile_cons_of_pos (by simpa using hboundary), List.reverse_cons,
      List.append_assoc]
    rfl

/-- A line without the carriage returns at its end. -/
def withoutReturns (line : List Char) : List Char := (line.reverse.dropWhile (· = '\r')).reverse

theorem exists_returns (line : List Char) :
    ∃ returns, line = withoutReturns line ++ returns ∧ ∀ c ∈ returns, c = '\r' := by
  refine ⟨(line.reverse.takeWhile (· = '\r')).reverse, ?_, fun c hc => ?_⟩
  · rw [withoutReturns, ← List.reverse_append, List.takeWhile_append_dropWhile, List.reverse_reverse]
  · exact of_decide_eq_true (List.all_eq_true.mp List.all_takeWhile c (List.mem_reverse.mp hc))

/-- Whether there is no line boundary in a text. -/
def Unbroken (u : List Char) : Prop := ∀ c ∈ u, isLineBoundary c = false

instance (u : List Char) : Decidable (Unbroken u) :=
  decidable_of_iff (u.all fun c => !isLineBoundary c) (by
    simp only [Unbroken, List.all_eq_true, Bool.not_eq_true'])

/-- The first line of a text by every boundary is the one by newlines, without the carriage returns at its
end, exactly if there is no boundary in that. -/
theorem takeWhile_eq_withoutReturns_iff (u : List Char) :
    u.takeWhile (!isLineBoundary ·) = withoutReturns (u.takeWhile (· ≠ '\n')) ↔
      Unbroken (withoutReturns (u.takeWhile (· ≠ '\n'))) := by
  obtain ⟨returns, hline, hreturns⟩ := exists_returns (u.takeWhile (· ≠ '\n'))
  have hu : u = withoutReturns (u.takeWhile (· ≠ '\n')) ++ (returns ++ u.dropWhile (· ≠ '\n')) := by
    rw [← List.append_assoc, ← hline, List.takeWhile_append_dropWhile]
  have hstop : ∀ c ∈ (returns ++ u.dropWhile (· ≠ '\n')).head?, (!isLineBoundary c) = false := by
    intro c hc
    cases returns with
    | nil =>
      obtain rfl : c = '\n' := by simpa using head?_dropWhile_eq_false hc
      rfl
    | cons d returns =>
      cases hc
      rw [hreturns c List.mem_cons_self]
      rfl
  refine ⟨fun h c hc => ?_, fun h => ?_⟩
  · rw [← h] at hc
    simpa using List.all_eq_true.mp List.all_takeWhile c hc
  · exact (congrArg (List.takeWhile _) hu).trans
      (takeWhile_append_of_stop (fun c hc => by rw [h c hc]; rfl) hstop)

end Text

namespace Source

variable {s : Source} {number : Int}

/-- Whether the lines above line `number` are the same by newlines and by every line boundary. -/
def CountedAbove (s : Source) (number : Int) : Prop :=
  ∃ above below, s.text.toList = above ++ below ∧ WholeLines above ∧
    number = s.firstLine + above.count '\n' ∧
      (Text.boundaryLines above).length = above.count '\n'

theorem lineText_of_append {above below : List Char} (h : s.text.toList = above ++ below)
    (habove : WholeLines above) (hnumber : number = s.firstLine + above.count '\n') :
    s.lineText number = String.ofList (Text.withoutReturns (below.takeWhile (· ≠ '\n'))) := by
  have hindex : (number - s.firstLine).toNat = (Text.newlineLines above).dropLast.length := by
    rw [List.length_dropLast, Text.length_newlineLines]
    omega
  have hline : (Text.newlineLines s.text.toList)[(number - s.firstLine).toNat]? =
      some (below.takeWhile (· ≠ '\n')) := by
    rw [h, Text.newlineLines_append habove, hindex, List.getElem?_append_right (Nat.le_refl _),
      Nat.sub_self, ← List.head?_eq_getElem?, Text.head?_newlineLines]
  rw [lineText, hline]
  rfl

theorem line?_of_append {above below : List Char} (h : s.text.toList = above ++ below)
    (habove : WholeLines above) (hnumber : number = 1 + above.count '\n')
    (hcount : (Text.boundaryLines above).length = above.count '\n') :
    (Listing.ofText s.text).line? number = (Text.boundaryLines below).head? := by
  rw [Listing.ofText, h, Text.boundaryLines_append habove, Listing.line?_below (by omega), Listing.line?,
    if_pos (by omega), List.head?_eq_getElem?]
  congr 1
  omega

/-- Where a listing has more lines than there are newlines above, the next line is one of these. -/
theorem line?_of_uncounted {above below : List Char} (h : s.text.toList = above ++ below)
    (habove : WholeLines above) (hcount : above.count '\n' < (Text.boundaryLines above).length) :
    (Listing.ofText s.text).line? (1 + above.count '\n') =
      (Text.boundaryLines above)[above.count '\n']? := by
  rw [Listing.ofText, h, Text.boundaryLines_append habove, Listing.line?_above (by omega), Listing.line?,
    if_pos (by omega)]
  congr 1
  omega

/-- Where the lines above are counted alike, the listing gives the text of a line exactly if there is no
boundary in it. -/
theorem line?_eq_lineText_iff (hfirst : s.firstLine = 1) (h : s.CountedAbove number) {quoted : String}
    (hquoted : (Listing.ofText s.text).line? number = some quoted.toList) :
    quoted = s.lineText number ↔ Text.Unbroken (s.lineText number).toList := by
  obtain ⟨above, below, htext, habove, hnumber, hcount⟩ := h
  rw [line?_of_append htext habove (by rw [hnumber, hfirst]) hcount] at hquoted
  have hline := Text.head?_boundaryLinesFrom hquoted
  rw [lineText_of_append htext habove hnumber, String.toList_ofList,
    ← Text.takeWhile_eq_withoutReturns_iff, ← String.toList_inj, String.toList_ofList, hline]
  rfl

end Source

end CPreprocessor
