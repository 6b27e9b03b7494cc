import CPreprocessor.Proofs.Directive.Agreement
import CPreprocessor.Proofs.Source.LastLine

/-!
# The text around a group that is never processed

A text with a group is read in five parts, and nothing that is quoted from outside of the group
depends on what stands in it, if the lines by which diagnostics are placed and those by which they
are quoted do not drift apart before the group (`agree_skipping`).
-/

namespace CPreprocessor

/-! ## The text with the group -/

/-- A text with a group that is never processed. -/
def skippingText (before body after : String) : String :=
  before ++ "#if 0\n" ++ body ++ "#endif\n" ++ after

def blankLines (n : Nat) : String := String.ofList (List.replicate n '\n')

/-- As many empty lines as a text has newlines. -/
def emptyLines (body : String) : String := blankLines (body.toList.count '\n')

namespace Source

/-- The line `#if 0`. -/
def openingLine (file : String) (line : Int) : List Scanned :=
  [{ token := { kind := .punctuator, text := "#", location := ⟨file, line, 1⟩ } },
   { token := { kind := .identifier, text := "if", location := ⟨file, line, 2⟩ } },
   { token := { kind := .whitespace, text := " ", location := ⟨file, line, 4⟩ } },
   { token := { kind := .number, text := "0", location := ⟨file, line, 5⟩ } },
   { token := { kind := .newline, text := "\n", location := ⟨file, line, 6⟩ } }]

/-- The line `#endif`. -/
def closingLine (file : String) (line : Int) : List Scanned :=
  [{ token := { kind := .punctuator, text := "#", location := ⟨file, line, 1⟩ } },
   { token := { kind := .identifier, text := "endif", location := ⟨file, line, 2⟩ } },
   { token := { kind := .newline, text := "\n", location := ⟨file, line, 7⟩ } }]

theorem scan_opening (file : String) (line : Int) :
    ({ text := "#if 0\n", file, firstLine := line } : Source).scan = openingLine file line := by
  cbv

theorem scan_closing (file : String) (line : Int) :
    ({ text := "#endif\n", file, firstLine := line } : Source).scan = closingLine file line := by
  cbv

theorem boundaryLines_opening : Text.boundaryLines "#if 0\n".toList = ["#if 0".toList] := by decide

theorem boundaryLines_closing : Text.boundaryLines "#endif\n".toList = ["#endif".toList] := by
  decide

theorem continues_opening : Listing.continues "#if 0".toList = false := by decide

/-- What stands before the group. -/
def beforeGroup (file before : String) : Source := { text := before, file }

/-- What stands in the group, in its place. -/
def inGroup (file before body : String) : Source :=
  { text := body, file, firstLine := (beforeGroup file before).newlines + 2 }

/-- What stands after the group, in its place. -/
def afterGroup (file before body after : String) : Source :=
  { text := after, file,
    firstLine := (inGroup file before body).firstLine + (inGroup file before body).newlines + 1 }

variable {file before body : String}

theorem endsLine_of_scan {s : Source} {line : List Scanned} {t : Scanned}
    (h : s.scan = line) (hlast : line.getLast? = some t) (hkind : t.token.kind = .newline) :
    s.EndsLine := by
  intro t' ht'
  rw [h, hlast] at ht'
  cases ht'
  exact hkind

theorem following_opening (file before : String) :
    (beforeGroup file before).following "#if 0\n" =
      { text := "#if 0\n", file, firstLine := (beforeGroup file before).newlines + 1 } := by
  simp only [following, beforeGroup, Source.mk.injEq, true_and]
  omega

/-- The source up to the body of the group. -/
def throughOpening (file before : String) : Source := (beforeGroup file before).extend "#if 0\n"

theorem EndsLine.throughOpening (h : (beforeGroup file before).EndsLine) :
    (throughOpening file before).EndsLine := by
  refine h.extend ?_
  rw [following_opening]
  exact endsLine_of_scan (scan_opening ..) rfl rfl

theorem newlines_throughOpening (file before : String) :
    (throughOpening file before).newlines = (beforeGroup file before).newlines + 1 := by
  rw [Source.throughOpening, newlines_extend, show "#if 0\n".toList.count '\n' = 1 by decide]

theorem following_body (file before body : String) :
    (throughOpening file before).following body = inGroup file before body := by
  have hfirst : (throughOpening file before).firstLine = 1 := rfl
  have hline : (throughOpening file before).firstLine + (throughOpening file before).newlines =
      (inGroup file before body).firstLine := by
    have hbody : (inGroup file before body).firstLine = (beforeGroup file before).newlines + 2 := rfl
    rw [hfirst, newlines_throughOpening, hbody]
    omega
  rw [following, hline]
  rfl

theorem newlines_throughBody (file before body : String) :
    ((throughOpening file before).extend body).newlines =
      (beforeGroup file before).newlines + (inGroup file before body).newlines + 1 := by
  have hbody : (inGroup file before body).newlines = body.toList.count '\n' := rfl
  rw [newlines_extend, newlines_throughOpening, hbody]
  omega

/-- The source up to what stands after the group. -/
def throughClosing (file before body : String) : Source :=
  ((throughOpening file before).extend body).extend "#endif\n"

theorem following_closing (file before body : String) :
    ((throughOpening file before).extend body).following "#endif\n" =
      { text := "#endif\n", file,
        firstLine := (inGroup file before body).firstLine + (inGroup file before body).newlines } := by
  have hfirst : ((throughOpening file before).extend body).firstLine = 1 := rfl
  have hline : (inGroup file before body).firstLine = (beforeGroup file before).newlines + 2 := rfl
  rw [following, hfirst, newlines_throughBody, hline]
  simp only [Source.mk.injEq, true_and]
  refine ⟨rfl, ?_⟩
  omega

theorem EndsLine.throughClosing (h : (beforeGroup file before).EndsLine)
    (hbody : (inGroup file before body).EndsLine) : (throughClosing file before body).EndsLine := by
  refine (h.throughOpening.extend ?_).extend ?_
  · rwa [following_body]
  · rw [following_closing]
    exact endsLine_of_scan (scan_closing ..) rfl rfl

theorem newlines_throughClosing (file before body : String) :
    (throughClosing file before body).newlines =
      (beforeGroup file before).newlines + (inGroup file before body).newlines + 2 := by
  rw [Source.throughClosing, newlines_extend, newlines_throughBody,
    show "#endif\n".toList.count '\n' = 1 by decide]

theorem following_after (file before body after : String) :
    (throughClosing file before body).following after = afterGroup file before body after := by
  have hfirst : (throughClosing file before body).firstLine = 1 := rfl
  have hline : (inGroup file before body).firstLine = (beforeGroup file before).newlines + 2 := rfl
  rw [following, hfirst, newlines_throughClosing, afterGroup, hline]
  simp only [Source.mk.injEq, true_and]
  refine ⟨rfl, ?_⟩
  omega

theorem extend_after (file before body after : String) :
    (throughClosing file before body).extend after =
      { text := skippingText before body after, file } := rfl

theorem logicalLines_throughOpening (h : (beforeGroup file before).EndsLine) :
    (throughOpening file before).logicalLines =
      (beforeGroup file before).logicalLines ++
        [openingLine file ((beforeGroup file before).newlines + 1)] := by
  have hopening : ((beforeGroup file before).following "#if 0\n").logicalLines =
      [openingLine file ((beforeGroup file before).newlines + 1)] := by
    rw [following_opening, logicalLines, scan_opening]
    rfl
  rw [Source.throughOpening, logicalLines_extend h, hopening]

/-- The logical lines of a text with a group. -/
theorem logicalLines_skippingText (h : (beforeGroup file before).EndsLine)
    (hbody : (inGroup file before body).EndsLine) (after : String) :
    ({ text := skippingText before body after, file } : Source).logicalLines =
      (beforeGroup file before).logicalLines ++
        openingLine file ((beforeGroup file before).newlines + 1) ::
          ((inGroup file before body).logicalLines ++
            closingLine file
                ((inGroup file before body).firstLine + (inGroup file before body).newlines) ::
              (afterGroup file before body after).logicalLines) := by
  have hclosing : (((throughOpening file before).extend body).following "#endif\n").logicalLines =
      [closingLine file
        ((inGroup file before body).firstLine + (inGroup file before body).newlines)] := by
    rw [following_closing, logicalLines, scan_closing]
    rfl
  have hthrough : ((throughOpening file before).extend body).EndsLine := by
    refine h.throughOpening.extend ?_
    rwa [following_body]
  rw [← extend_after, logicalLines_extend (h.throughClosing hbody), following_after,
    Source.throughClosing, logicalLines_extend hthrough, hclosing,
    logicalLines_extend h.throughOpening, following_body, logicalLines_throughOpening h]
  simp only [List.append_assoc, List.cons_append, List.nil_append]

/-! ## Empty lines -/

theorem toList_blankLines (n : Nat) : (blankLines n).toList = List.replicate n '\n' :=
  String.toList_ofList

theorem count_blankLines (n : Nat) : (blankLines n).toList.count '\n' = n := by
  rw [toList_blankLines, List.count_replicate_self]

theorem newlines_emptyLines (file before body : String) :
    (inGroup file before (emptyLines body)).newlines = (inGroup file before body).newlines :=
  count_blankLines _

theorem firstLine_afterGroup (file before body after : String) :
    (afterGroup file before body after).firstLine =
      (beforeGroup file before).newlines + 2 + (inGroup file before body).newlines + 1 := rfl

theorem firstLine_emptyLines (file before body : String) :
    (inGroup file before (emptyLines body)).firstLine = (inGroup file before body).firstLine := rfl

theorem afterGroup_emptyLines (file before body after : String) :
    afterGroup file before (emptyLines body) after = afterGroup file before body after := by
  rw [afterGroup, afterGroup, newlines_emptyLines, firstLine_emptyLines]

theorem onlyNewlines_blankLines (n : Nat) : Text.OnlyNewlines (blankLines n).toList := by
  intro c hc _
  rw [toList_blankLines] at hc
  exact List.eq_of_mem_replicate hc

theorem mem_lexemes_newlines {l : Lexeme} (n : Nat)
    (h : l ∈ lexemes (despliced (List.replicate n '\n'))) : l = .token .newline ['\n'] := by
  have hdespliced : ∀ n : Nat, despliced (List.replicate n '\n') = List.replicate n '\n' := by
    intro n
    induction n with
    | zero => rfl
    | succ n ih =>
      rw [List.replicate_succ, despliced, ih]
      · exact fun cs hc => absurd hc (by decide)
      · exact fun cs hc => absurd hc (by decide)
  have hlexemes : ∀ n : Nat,
      lexemes (List.replicate n '\n') = List.replicate n (.token .newline ['\n']) := by
    intro n
    induction n with
    | zero => rw [List.replicate_zero, lexemes, List.replicate_zero]
    | succ n ih =>
      have hfirst : Lexeme.first '\n' (List.replicate n '\n') = .ok (.newline, 0) := rfl
      rw [List.replicate_succ, lexemes, hfirst]
      simp only [List.take_zero, List.drop_zero]
      rw [ih, List.replicate_succ]
  rw [hdespliced, hlexemes] at h
  exact List.eq_of_mem_replicate h

theorem kind_of_mem_settle {s : Source} {ls : List Lexeme} {ps : List Place} {t : Scanned}
    (hls : ∀ l ∈ ls, l = .token .newline ['\n']) (h : t ∈ s.settle ls ps) :
    t.token.kind = .newline := by
  induction ls generalizing ps with
  | nil => cases h
  | cons l ls ih =>
    obtain ⟨rfl, htail⟩ := List.forall_mem_cons.mp hls
    cases ps with
    | nil => cases h
    | cons p ps =>
      rcases List.mem_cons.mp h with rfl | h
      · rfl
      · exact ih htail h

theorem kind_of_mem_blankLines {s : Source} {n : Nat} (hs : s.text = blankLines n) {t : Scanned}
    (h : t ∈ s.scan) : t.token.kind = .newline := by
  refine kind_of_mem_settle (fun l hl => ?_) h
  refine mem_lexemes_newlines n ?_
  rwa [hs, toList_blankLines] at hl

theorem EndsLine.of_blankLines {s : Source} {n : Nat} (hs : s.text = blankLines n) : s.EndsLine :=
  fun _ ht => kind_of_mem_blankLines hs (List.mem_of_getLast? ht)

theorem linesFrom_newlines {ts : List Scanned} (h : ∀ t ∈ ts, t.token.kind = .newline) :
    linesFrom [] ts = ts.map fun t => [t] := by
  induction ts with
  | nil => rfl
  | cons t ts ih =>
    obtain ⟨ht, hts⟩ := List.forall_mem_cons.mp h
    rw [linesFrom, if_pos ht, ih hts]
    rfl

theorem form_blankLines {s : Source} {n : Nat} (hs : s.text = blankLines n) {line : List Scanned}
    (h : line ∈ s.logicalLines) : LineForm.of (line.map Scanned.token) = .text := by
  rw [logicalLines, linesFrom_newlines fun t ht => kind_of_mem_blankLines hs ht] at h
  obtain ⟨t, ht, rfl⟩ := List.mem_map.mp h
  have hkind := kind_of_mem_blankLines hs ht
  simp [LineForm.of, Token.isPunctuator, hkind]

/-! ## Quotations outside of the group -/

theorem boundaryLines_skippingText (h : WholeLines before.toList) (hbody : WholeLines body.toList)
    (after : String) :
    Text.boundaryLines (skippingText before body after).toList =
      Text.boundaryLines before.toList ++ "#if 0".toList ::
        (Text.boundaryLines body.toList ++ "#endif".toList ::
          Text.boundaryLines after.toList) := by
  have hopening : WholeLines "#if 0\n".toList :=
    (endsLine_of_scan (scan_opening "" 1) rfl rfl).wholeLines
  have hclosing : WholeLines "#endif\n".toList :=
    (endsLine_of_scan (scan_closing "" 1) rfl rfl).wholeLines
  have hthrough := (h.append hopening).append hbody
  simp only [skippingText, String.toList_append]
  rw [Text.boundaryLines_append (hthrough.append hclosing), Text.boundaryLines_append hthrough,
    Text.boundaryLines_append (h.append hopening), Text.boundaryLines_append h, boundaryLines_opening,
    boundaryLines_closing]
  simp only [List.append_assoc, List.cons_append, List.nil_append]

end Source

open Source

namespace SourceUnit

variable {before body file : String} {number : Int}

/-- A run over a text with a group that is never processed. -/
def skipping (file : String) (setup : Setup) (before body after : String) : SourceUnit :=
  { source := { text := skippingText before body after, file }, setup }

/-- A run over the part of it that ends before the body of the group. -/
def opening (file : String) (setup : Setup) (before : String) : SourceUnit :=
  { source := throughOpening file before, setup }

theorem listing_opening (h : (beforeGroup file before).EndsLine) (setup : Setup) :
    (opening file setup before).listing =
      ⟨Text.boundaryLines before.toList ++ ["#if 0".toList]⟩ := by
  have hbefore : WholeLines before.toList := h.wholeLines
  have htext : (opening file setup before).source.text.toList =
      before.toList ++ "#if 0\n".toList := String.toList_append
  rw [listing, Listing.ofText, htext, Text.boundaryLines_append hbefore, boundaryLines_opening]

section
variable (h : (beforeGroup file before).EndsLine) (hbody : (inGroup file before body).EndsLine)
  (hlines : (Text.boundaryLines before.toList).length ≤ before.toList.count '\n' + 1)
  (honly : Text.OnlyNewlines body.toList)

include h hbody

theorem listing_skipping (setup : Setup) (after : String) :
    (skipping file setup before body after).listing =
      ⟨Text.boundaryLines before.toList ++ "#if 0".toList ::
        (Text.boundaryLines body.toList ++ "#endif".toList ::
          Text.boundaryLines after.toList)⟩ := by
  have hbefore : WholeLines before.toList := h.wholeLines
  have hinside : WholeLines body.toList := hbody.wholeLines
  simp only [listing, Listing.ofText, skipping]
  rw [boundaryLines_skippingText hbefore hinside]

/-- What is quoted from above the body of the group does not depend on it. -/
theorem quoted_above (setup : Setup) (after : String)
    (hnumber : number ≤ (beforeGroup file before).newlines + 1) :
    (skipping file setup before body after).listing.line? number =
        (opening file setup before).listing.line? number ∧
      (skipping file setup before body after).listing.logicalLine number =
        (opening file setup before).listing.logicalLine number := by
  have hlength : (beforeGroup file before).newlines ≤ (Text.boundaryLines before.toList).length :=
    Text.count_le_length_boundaryLines before.toList
  rw [listing_skipping h hbody, listing_opening h]
  refine ⟨?_, Listing.logicalLine_above continues_opening (by omega)⟩
  rw [List.append_cons]
  exact Listing.line?_above (by rw [List.length_append, List.length_singleton]; omega)

include hlines honly

/-- Nor does what is quoted from below the group, but for the number of lines. -/
theorem quoted_below (setup : Setup) (after : String)
    (hnumber : (beforeGroup file before).newlines + (inGroup file before body).newlines + 2 < number) :
    (skipping file setup before body after).listing.line? number =
        (Listing.mk ("#endif".toList :: Text.boundaryLines after.toList)).line?
          (number - ((Text.boundaryLines before.toList).length +
            (inGroup file before body).newlines + 1)) ∧
      (skipping file setup before body after).listing.logicalLine number =
        (Listing.mk ("#endif".toList :: Text.boundaryLines after.toList)).logicalLine
          (number - ((Text.boundaryLines before.toList).length +
            (inGroup file before body).newlines + 1)) := by
  have hinside : (Text.boundaryLines body.toList).length = (inGroup file before body).newlines :=
    Text.length_boundaryLines hbody.wholeLines honly
  have hnewlines : (beforeGroup file before).newlines = before.toList.count '\n' := rfl
  have hlength : (Text.boundaryLines before.toList ++
      "#if 0".toList :: Text.boundaryLines body.toList).length =
        (Text.boundaryLines before.toList).length + (inGroup file before body).newlines + 1 := by
    rw [List.length_append, List.length_cons, hinside]
    rfl
  have hbare : ∀ l ∈ (Text.boundaryLines before.toList ++
      "#if 0".toList :: Text.boundaryLines body.toList).reverse.takeWhile Listing.continues,
        l = ['\\'] := by
    rw [Listing.takeWhile_reverse_append continues_opening]
    exact bare_of_despliced hbody.despliced
  rw [listing_skipping h hbody, ← List.cons_append, ← List.append_assoc]
  generalize Text.boundaryLines before.toList ++ "#if 0".toList :: Text.boundaryLines body.toList =
    above at hlength hbare ⊢
  have hmeasure : (above.length : Int) =
      (Text.boundaryLines before.toList).length + (inGroup file before body).newlines + 1 := by
    omega
  rw [← hmeasure]
  exact ⟨Listing.line?_below (by omega), Listing.logicalLine_below hbare (by omega)⟩

end

end SourceUnit

/-- Whether a place is in the body of the group. -/
def InBody (file before body : String) (location : Location) : Prop :=
  (inGroup file before body).firstLine ≤ location.line ∧
    location.line < (inGroup file before body).firstLine + (inGroup file before body).newlines

instance (file before body : String) (location : Location) :
    Decidable (InBody file before body location) :=
  inferInstanceAs (Decidable (_ ∧ _))

/-- Whether a place is above the body of the group. -/
def AboveBody (file before : String) (location : Location) : Prop :=
  1 ≤ location.line ∧ location.line ≤ (beforeGroup file before).newlines + 1

/-- Whether a place is above the body of the group, or below the group. -/
def BesideGroup (file before body : String) (location : Location) : Prop :=
  AboveBody file before location ∨
    (beforeGroup file before).newlines + (inGroup file before body).newlines + 2 < location.line

section
variable {before body file : String} {location : Location} {line : List Scanned}

theorem BesideGroup.not_inBody (h : BesideGroup file before body location) :
    ¬ InBody file before body location := by
  rintro ⟨hfirst, hlast⟩
  have hline : (inGroup file before body).firstLine = (beforeGroup file before).newlines + 2 := rfl
  rcases h with ⟨-, h⟩ | h
  · omega
  · omega

theorem standAt_of_scan {s : Source} {P : Location → Prop} (hline : line ∈ s.logicalLines)
    (h : ∀ t ∈ s.scan, P t.token.location) : StandAt P (line.map Scanned.token) := by
  intro t ht
  obtain ⟨scanned, hscanned, rfl⟩ := List.mem_map.mp ht
  exact h scanned (mem_scan_of_mem_logicalLines hline hscanned)

theorem standAt_beforeGroup (h : (beforeGroup file before).EndsLine)
    (hline : line ∈ (beforeGroup file before).logicalLines) :
    StandAt (AboveBody file before) (line.map Scanned.token) := by
  refine standAt_of_scan hline fun t ht => ?_
  obtain ⟨hfirst, hlast⟩ := line_of_mem_scan ht
  have hlast := hlast h.wholeLines
  have hone : (beforeGroup file before).firstLine = 1 := rfl
  exact ⟨by omega, by omega⟩

theorem standAt_openingLine : StandAt (AboveBody file before)
    ((openingLine file ((beforeGroup file before).newlines + 1)).map Scanned.token) := by
  intro t ht
  have hline : t.location.line = (beforeGroup file before).newlines + 1 := by
    simp only [openingLine, List.map_cons, List.map_nil, List.mem_cons, List.not_mem_nil,
      or_false] at ht
    rcases ht with rfl | rfl | rfl | rfl | rfl
    all_goals rfl
  exact ⟨by omega, by omega⟩

theorem standAt_afterGroup {after : String}
    (hline : line ∈ (afterGroup file before body after).logicalLines) :
    StandAt (BesideGroup file before body) (line.map Scanned.token) := by
  refine standAt_of_scan hline fun t ht => ?_
  have hfirst := (line_of_mem_scan ht).1
  have hafter : (afterGroup file before body after).firstLine =
      (beforeGroup file before).newlines + 2 + (inGroup file before body).newlines + 1 := rfl
  exact .inr (by omega)

theorem standAt_inGroup (h : (inGroup file before body).EndsLine)
    (hline : line ∈ (inGroup file before body).logicalLines) :
    StandAt (InBody file before body) (line.map Scanned.token) := by
  refine standAt_of_scan hline fun t ht => ?_
  obtain ⟨hfirst, hlast⟩ := line_of_mem_scan ht
  exact ⟨hfirst, hlast h.wholeLines⟩

theorem lineText_above (h : (beforeGroup file before).EndsLine) (body after : String)
    (hfirst : 1 ≤ location.line) (hline : location.line ≤ (beforeGroup file before).newlines + 1) :
    ({ text := skippingText before body after, file } : Source).lineText location.line =
      (throughOpening file before).lineText location.line := by
  rw [← extend_after, Source.throughClosing, extend_extend, extend_extend]
  refine Source.lineText_above h.throughOpening.wholeLines hfirst ?_ _
  have hone : (throughOpening file before).firstLine = 1 := rfl
  rw [newlines_throughOpening, hone]
  omega

theorem lineText_below (h : (beforeGroup file before).EndsLine)
    (hbody : (inGroup file before body).EndsLine) (after : String)
    (hline : (beforeGroup file before).newlines + (inGroup file before body).newlines + 2 <
      location.line) :
    ({ text := skippingText before body after, file } : Source).lineText location.line =
      (afterGroup file before body after).lineText location.line := by
  have hone : (throughClosing file before body).firstLine = 1 := rfl
  rw [← extend_after, ← following_after]
  refine Source.lineText_below (h.throughClosing hbody).wholeLines ?_ _
  rw [newlines_throughClosing, hone]
  omega

theorem agree_opening (h : (beforeGroup file before).EndsLine)
    (hbody : (inGroup file before body).EndsLine) (setup : Setup) (after : String) :
    SourceUnit.Agree (AboveBody file before) (.skipping file setup before body after)
      (.opening file setup before) where
  setup := rfl
  quote? _ hlocation :=
    congrArg (Option.map String.ofList)
      (SourceUnit.quoted_above h hbody setup after hlocation.2).1
  logicalLine _ hlocation :=
    (SourceUnit.quoted_above h hbody setup after hlocation.2).2
  lineText _ hlocation := lineText_above h body after hlocation.1 hlocation.2

/-- The text with the group and the one with empty lines in it quote the same below the group. -/
theorem agree_below (h : (beforeGroup file before).EndsLine)
    (hbody : (inGroup file before body).EndsLine)
    (hlines : (Text.boundaryLines before.toList).length ≤ before.toList.count '\n' + 1)
    (honly : Text.OnlyNewlines body.toList) (setup : Setup) (after : String) :
    SourceUnit.Agree
      (fun location => (beforeGroup file before).newlines + (inGroup file before body).newlines + 2 <
        location.line)
      (.skipping file setup before body after)
      (.skipping file setup before (emptyLines body) after) := by
  have hempty : (inGroup file before (emptyLines body)).EndsLine := .of_blankLines rfl
  have hquoted : ∀ location : Location,
      (beforeGroup file before).newlines + (inGroup file before body).newlines + 2 < location.line →
        (SourceUnit.skipping file setup before body after).listing.line? location.line =
            (SourceUnit.skipping file setup before (emptyLines body) after).listing.line?
              location.line ∧
          (SourceUnit.skipping file setup before body after).listing.logicalLine location.line =
            (SourceUnit.skipping file setup before (emptyLines body) after).listing.logicalLine
              location.line := by
    intro location hline
    obtain ⟨hleft, hleft'⟩ := SourceUnit.quoted_below h hbody hlines honly setup after hline
    rw [← newlines_emptyLines] at hline
    obtain ⟨hright, hright'⟩ := SourceUnit.quoted_below h hempty hlines
      (onlyNewlines_blankLines _) setup after hline
    rw [newlines_emptyLines] at hright hright'
    exact ⟨hleft.trans hright.symm, hleft'.trans hright'.symm⟩
  refine ⟨rfl, fun location hline => congrArg (Option.map String.ofList) (hquoted _ hline).1,
    fun location hline => (hquoted _ hline).2, fun location hline => ?_⟩
  refine (lineText_below h hbody after hline).trans ?_
  rw [← newlines_emptyLines] at hline
  refine Eq.trans ?_ (lineText_below h hempty after hline).symm
  rw [afterGroup_emptyLines]

/-- They quote the same beside the group. -/
theorem agree_skipping (h : (beforeGroup file before).EndsLine)
    (hbody : (inGroup file before body).EndsLine)
    (hlines : (Text.boundaryLines before.toList).length ≤ before.toList.count '\n' + 1)
    (honly : Text.OnlyNewlines body.toList) (setup : Setup) (after : String) :
    SourceUnit.Agree (BesideGroup file before body) (.skipping file setup before body after)
      (.skipping file setup before (emptyLines body) after) :=
  ((agree_opening h hbody setup after).trans
    (agree_opening h (.of_blankLines rfl) setup after).symm).or
      (agree_below h hbody hlines honly setup after)

end

end CPreprocessor
