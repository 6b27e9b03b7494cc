import CPreprocessor.Proofs.Directive.DeadRegion

/-!
# Quotations from a group

The bound in `Run.start_skipping` is the best one: if before a live group the line boundaries are at
least two more than the newlines, there is a group and a `#warning` after it that gives the text of
a line in the group (`Run.exists_not_equalBut`).
-/

namespace CPreprocessor

open Source Run

variable {file before body : String} {setup : Setup} {u : SourceUnit} {r : Run}

/-! ## A warning -/

/-- What follows the name in the line `#warning w`. -/
def warningRest (file : String) (line : Int) : List Token :=
  [{ kind := .whitespace, text := " ", location := ⟨file, line, 9⟩ },
    { kind := .identifier, text := "w", location := ⟨file, line, 10⟩ }]

/-- The line `#warning w`. -/
def warningLine (file : String) (line : Int) : List Scanned :=
  [{ token := { kind := .punctuator, text := "#", location := ⟨file, line, 1⟩ } },
   { token := { kind := .identifier, text := "warning", location := ⟨file, line, 2⟩ } },
   { token := { kind := .whitespace, text := " ", location := ⟨file, line, 9⟩ } },
   { token := { kind := .identifier, text := "w", location := ⟨file, line, 10⟩ } },
   { token := { kind := .newline, text := "\n", location := ⟨file, line, 11⟩ } }]

theorem logicalLines_warning (file : String) (line : Int) :
    ({ text := "#warning w\n", file, firstLine := line } : Source).logicalLines =
      [warningLine file line] := by
  cbv

theorem form_warningLine (file : String) (line : Int) :
    LineForm.of ((warningLine file line).map Scanned.token) =
      .directive { kind := .punctuator, text := "#", location := ⟨file, line, 1⟩ }
        { kind := .identifier, text := "warning", location := ⟨file, line, 2⟩ }
        (warningRest file line) := by
  cbv

theorem entries_warningLine (hpending : r.pending = []) (hlive : r.isLive = true) (file : String)
    (line : Int) :
    (take u r (warningLine file line)).journal.entries =
      r.journal.entries ++ [.warning (DirectiveFault.withMessage "warning"
        (messageText u (warningRest file line) ⟨file, line, 1⟩)) (some ⟨file, line, 1⟩)] := by
  have hnote : r.noteFaults u (warningLine file line) = r := by
    rw [noteFaults, hlive]
    rfl
  have hkeyword : Keyword.ofText? "warning" = some .warning := by decide
  rw [take, hnote, takeLine, form_warningLine]
  simp only [flush_of_pending hpending, directive, hkeyword, hlive, if_true]
  rw [checkJournal]
  split
  · rfl
  · rfl

/-! ## The run up to the warning -/

namespace Run

theorem aborted_takeLines_append {lines : List (List Scanned)}
    (h : (takeLines u r lines).aborted = true) (more : List (List Scanned)) :
    (takeLines u r (lines ++ more)).aborted = true := by
  induction lines generalizing r with
  | nil => exact takeLines_aborted more h
  | cons line lines ih =>
    rw [takeLines] at h
    rw [List.cons_append, takeLines]
    split at h
    · rename_i haborted
      rw [if_pos haborted]
      exact haborted
    · rename_i haborted
      rw [if_neg haborted]
      exact ih h

/-- A run up to the body of a group. -/
def untilBody (file : String) (setup : Setup) (before : String) (table : Table) : Run :=
  takeLines (.opening file setup before) { table, journal := { limit := setup.maxErrors } }
    (throughOpening file before).logicalLines

variable {table : Table} (h : (beforeGroup file before).EndsLine)
  (hbody : (inGroup file before body).EndsLine) (block : Block fun _ _ => True)
  (hblock : (inGroup file before body).logicalLines.map (·.map Scanned.token) = block.lines)
  (haborted : (untilBody file setup before table).aborted = false)

include h hbody hblock haborted

/-- After the group a run goes on from where it was before its body. -/
theorem start_eq_afterGroup (after : String) :
    (untilBody file setup before table).pending = [] ∧
      ∃ vs, start (.skipping file setup before body after) table =
        (takeLines (.skipping file setup before body after)
          ((untilBody file setup before table).pass
            (untilBody file setup before table).frames.tail vs)
          (afterGroup file before body after).logicalLines).finish
            (.skipping file setup before body after) := by
  have hagree := agree_opening h hbody setup after
  have hstart : start (.skipping file setup before body after) table =
      (takeLines (.skipping file setup before body after)
        { table, journal := { limit := setup.maxErrors } }
        (SourceUnit.skipping file setup before body after).source.logicalLines).finish
          (.skipping file setup before body after) := rfl
  have hlines : (SourceUnit.skipping file setup before body after).source.logicalLines = _ :=
    logicalLines_skippingText h hbody after
  rw [hstart, hlines]
  rw [untilBody, logicalLines_throughOpening h] at haborted ⊢
  have hstands₀ : Stands (AboveBody file before)
      { table, journal := { limit := setup.maxErrors } } := .initial ..
  generalize ({ table, journal := { limit := setup.maxErrors } } : Run) = r₀
    at haborted hstands₀ ⊢
  obtain ⟨hsame, hstands₁⟩ := takeLines_congr hagree
    (fun line hline => standAt_beforeGroup h hline) hstands₀
  have haborted₁ : (takeLines (.opening file setup before) r₀
      (beforeGroup file before).logicalLines).aborted = false := by
    rw [Bool.eq_false_iff]
    intro hstop
    rw [aborted_takeLines_append hstop] at haborted
    cases haborted
  have hnotAborted : (takeLines (.skipping file setup before body after) r₀
      (beforeGroup file before).logicalLines).aborted = false := by rw [hsame, haborted₁]
  rw [takeLines_append hnotAborted, hsame]
  rw [takeLines_append haborted₁, takeLines_cons haborted₁, takeLines] at haborted ⊢
  generalize takeLines (.opening file setup before) r₀ (beforeGroup file before).logicalLines = r₁
    at haborted hstands₁ haborted₁ ⊢
  have htake := take_congr hagree standAt_openingLine hstands₁
  obtain ⟨hpending, -, frame, hframes⟩ := take_openingLine (.opening file setup before) r₁ file
    ((beforeGroup file before).newlines + 1)
  obtain ⟨vs, -, hskip⟩ := takeLines_pass haborted₁ (by rw [htake, haborted])
    (fun r hr => block.skips _ r _ hblock (fun line hline => standAt_inGroup hbody hline) hr)
    ((inGroup file before body).firstLine + (inGroup file before body).newlines)
  refine ⟨hpending, vs, ?_⟩
  rw [hskip, htake, hframes, List.tail_cons]

/-- What a run notes at a warning after a live group. -/
theorem entries_start
    (hlive : CPreprocessor.isLive (untilBody file setup before table).frames.tail = true) :
    let line := (afterGroup file before body "#warning w\n").firstLine
    let warned := SourceUnit.skipping file setup before body "#warning w\n"
    (untilBody file setup before table).journal.entries ++
        [.warning (DirectiveFault.withMessage "warning"
          (messageText warned (warningRest file line) ⟨file, line, 1⟩)) (some ⟨file, line, 1⟩)] <+:
      (start warned table).journal.entries := by
  intro line warned
  obtain ⟨hpending, vs, hstart⟩ :=
    start_eq_afterGroup h hbody block hblock haborted "#warning w\n"
  have hwarning : (afterGroup file before body "#warning w\n").logicalLines =
      [warningLine file line] := logicalLines_warning file line
  rw [hstart, hwarning]
  generalize untilBody file setup before table = r at *
  have hpass : (r.pass r.frames.tail vs).aborted = false := haborted
  have hentries := entries_warningLine (u := warned) (r := r.pass r.frames.tail vs) hpending hlive
    file line
  have hfinish := Extends.finish (u := warned)
    (take warned (r.pass r.frames.tail vs) (warningLine file line))
  have hpre := hfinish.entries
  rw [hentries] at hpre
  rw [takeLines_cons hpass, takeLines]
  exact hpre

end Run

/-! ## The quoted line -/

theorem logicalLine_firstOfBody (h : (beforeGroup file before).EndsLine)
    (hbody : (inGroup file before body).EndsLine) {first : List Char} {lines : List (List Char)}
    (hfirst : Text.boundaryLines body.toList = first :: lines)
    (hcontinues : Listing.continues first = false) (setup : Setup) (after : String) :
    (SourceUnit.skipping file setup before body after).listing.logicalLine
      ((Text.boundaryLines before.toList).length + 2) = first := by
  have hbare : ∀ l ∈ (Text.boundaryLines before.toList ++
      ["#if 0".toList]).reverse.takeWhile Listing.continues, l = ['\\'] := by
    rw [Listing.takeWhile_reverse_append continues_opening]
    exact fun l hl => absurd hl List.not_mem_nil
  have hlength : (Text.boundaryLines before.toList ++ ["#if 0".toList]).length =
      (Text.boundaryLines before.toList).length + 1 := by
    rw [List.length_append, List.length_singleton]
  rw [SourceUnit.listing_skipping h hbody, hfirst, List.append_cons,
    Listing.logicalLine_below hbare (by omega)]
  have hone : ((Text.boundaryLines before.toList).length : Int) + 2 -
      (Text.boundaryLines before.toList ++ ["#if 0".toList]).length = 1 := by omega
  rw [hone]
  simp [Listing.logicalLine, Listing.line?, Listing.joined, hcontinues]

theorem messageText_error {u : SourceUnit} {mark : Location} (rest : List Token)
    (h : u.listing.logicalLine mark.line = "#error x".toList) : messageText u rest mark = "x" := by
  have hmessage : MessageLine.message? "#error x".toList = some " x".toList := by decide
  have htext : String.ofList (Text.strip " x".toList) = "x" := by decide
  rw [messageText, h, hmessage]
  exact htext

theorem messageText_empty {u : SourceUnit} {mark : Location} (line : Int)
    (h : u.listing.logicalLine mark.line = []) : messageText u (warningRest file line) mark = "w" := by
  rw [messageText, h]
  cbv

/-- The line `#error x` with empty lines after it. -/
def errorBody (n : Nat) : String := "#error x\n" ++ blankLines n

theorem boundaryLines_errorBody (n : Nat) :
    Text.boundaryLines (errorBody n).toList =
      "#error x".toList :: Text.boundaryLines (blankLines n).toList := by
  have hwhole : WholeLines "#error x\n".toList :=
    (endsLine_of_scan (scan_error "" 1) rfl rfl).wholeLines
  have hline : Text.boundaryLines "#error x\n".toList = ["#error x".toList] := by decide
  rw [errorBody, String.toList_append, Text.boundaryLines_append hwhole, hline]
  rfl

theorem boundaryLines_blankLines (n : Nat) :
    Text.boundaryLines (blankLines (n + 1)).toList =
      [] :: Text.boundaryLines (blankLines n).toList := by
  rw [toList_blankLines, toList_blankLines, List.replicate_succ, Text.boundaryLines,
    Text.boundaryLinesFrom_cons fun _ hc => absurd hc (by decide), if_pos (by decide)]
  rfl

theorem count_errorBody (n : Nat) : (errorBody n).toList.count '\n' = n + 1 := by
  rw [errorBody, String.toList_append, List.count_append, count_blankLines,
    show "#error x\n".toList.count '\n' = 1 by decide, Nat.add_comm]

theorem onlyNewlines_errorBody (n : Nat) : Text.OnlyNewlines (errorBody n).toList := by
  intro c hc
  rw [errorBody, String.toList_append, List.mem_append] at hc
  rcases hc with hc | hc
  · exact (by decide : Text.OnlyNewlines "#error x\n".toList) c hc
  · exact onlyNewlines_blankLines n c hc

/-- The line `#error x` alone, where it begins the body of a group. -/
def errorSource (file before : String) : Source := inGroup file before "#error x\n"

theorem scan_errorSource (file before : String) :
    (errorSource file before).scan =
      (errorTokens file ((beforeGroup file before).newlines + 2)).map (⟨·, none⟩) :=
  scan_error ..

theorem inGroup_errorBody (file before : String) (n : Nat) :
    inGroup file before (errorBody n) = (errorSource file before).extend (blankLines n) := rfl

theorem endsLine_errorBody (file before : String) (n : Nat) :
    (inGroup file before (errorBody n)).EndsLine := by
  rw [inGroup_errorBody]
  exact (endsLine_of_scan (scan_errorSource file before) rfl rfl).extend (.of_blankLines rfl)

theorem exists_textTokens {lines : List (List Token)}
    (h : ∀ line ∈ lines, LineForm.of line = .text) : ∃ texts, lines = textTokens texts := by
  induction lines with
  | nil => exact ⟨[], rfl⟩
  | cons line lines ih =>
    obtain ⟨hline, hlines⟩ := List.forall_mem_cons.mp h
    obtain ⟨texts, rfl⟩ := ih hlines
    exact ⟨⟨line, hline⟩ :: texts, rfl⟩

theorem exists_texts_blankLines {s : Source} {n : Nat} (hs : s.text = blankLines n) :
    ∃ texts, s.logicalLines.map (·.map Scanned.token) = textTokens texts := by
  refine exists_textTokens fun line hline => ?_
  obtain ⟨scanned, hscanned, rfl⟩ := List.mem_map.mp hline
  exact form_blankLines hs hscanned

theorem exists_block_errorBody (file before : String) (n : Nat) :
    ∃ block : Block fun _ _ => True,
      (inGroup file before (errorBody n)).logicalLines.map (·.map Scanned.token) = block.lines := by
  have hscan := scan_errorSource file before
  have hlines : (errorSource file before).logicalLines =
      [(errorTokens file ((beforeGroup file before).newlines + 2)).map (⟨·, none⟩)] := by
    rw [logicalLines, hscan]
    rfl
  have hfollowing : ((errorSource file before).following (blankLines n)).text = blankLines n := rfl
  obtain ⟨texts, htexts⟩ := exists_texts_blankLines hfollowing
  refine ⟨.plain [] (errorLine file ((beforeGroup file before).newlines + 2)) (.last texts), ?_⟩
  rw [inGroup_errorBody, logicalLines_extend (endsLine_of_scan hscan rfl rfl), hlines,
    List.map_append, htexts]
  rfl

/-- With at least two more line boundaries than newlines before a live group, a diagnostic after the
group may depend on what stands in it. -/
theorem Run.exists_not_equalBut (file before : String) (setup : Setup) (table : Table)
    (hbefore : (beforeGroup file before).EndsLine)
    (hlines : before.toList.count '\n' + 1 < (Text.boundaryLines before.toList).length)
    (haborted : (untilBody file setup before table).aborted = false)
    (hlive : CPreprocessor.isLive (untilBody file setup before table).frames.tail = true) :
    ∃ body after : String, (inGroup file before body).EndsLine ∧ Text.OnlyNewlines body.toList ∧
      (∃ block : Block fun _ _ => True,
        (inGroup file before body).logicalLines.map (·.map Scanned.token) = block.lines) ∧
      ¬ EqualBut (InBody file before body)
        (start { source := { text := skippingText before body after, file }, setup } table)
        (start { source := { text := skippingText before (emptyLines body) after, file }, setup }
          table) := by
  obtain ⟨n, hn⟩ : ∃ n, (Text.boundaryLines before.toList).length =
      (beforeGroup file before).newlines + n + 2 :=
    ⟨(Text.boundaryLines before.toList).length - before.toList.count '\n' - 2, by
      unfold Source.newlines beforeGroup
      simp only
      omega⟩
  have hbody := endsLine_errorBody file before n
  obtain ⟨block, hblock⟩ := exists_block_errorBody file before n
  have hempty : (inGroup file before (emptyLines (errorBody n))).EndsLine := .of_blankLines rfl
  obtain ⟨texts, htexts⟩ := exists_texts_blankLines
    (rfl : (inGroup file before (emptyLines (errorBody n))).text = blankLines _)
  refine ⟨errorBody n, "#warning w\n", hbody, onlyNewlines_errorBody n, ⟨block, hblock⟩,
    fun hequal => ?_⟩
  have hfull := entries_start hbefore hbody block hblock haborted hlive
  have hblank := entries_start hbefore hempty (.last texts) htexts haborted hlive
  have hnumber : (afterGroup file before (errorBody n) "#warning w\n").firstLine =
      (Text.boundaryLines before.toList).length + 2 := by
    have hnewlines : (inGroup file before (errorBody n)).newlines = n + 1 := count_errorBody n
    rw [firstLine_afterGroup, hnewlines]
    omega
  have herror := logicalLine_firstOfBody hbefore hbody (boundaryLines_errorBody n) (by decide)
    setup "#warning w\n"
  have hnothing := logicalLine_firstOfBody hbefore hempty
    (by rw [emptyLines, count_errorBody]; exact boundaryLines_blankLines n) rfl setup "#warning w\n"
  simp only [afterGroup_emptyLines, hnumber] at hfull hblank
  rw [messageText_error _ herror] at hfull
  rw [messageText_empty _ hnothing] at hblank
  have hentries : (start (.skipping file setup before (errorBody n) "#warning w\n")
      table).journal.entries =
    (start (.skipping file setup before (emptyLines (errorBody n)) "#warning w\n")
      table).journal.entries := hequal.diagnostics
  rw [← hentries] at hblank
  have hsame := (List.prefix_of_prefix_length_le hfull hblank (by simp)).eq_of_length (by simp)
  have hwarning := List.append_cancel_left hsame
  have hmessage : DirectiveFault.withMessage "warning" "x" =
      DirectiveFault.withMessage "warning" "w" := by
    injection hwarning with hwarning
    injection hwarning
  exact absurd hmessage (by decide)

end CPreprocessor
