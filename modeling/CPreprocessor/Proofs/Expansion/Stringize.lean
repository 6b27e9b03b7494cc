import Mathlib
import CPreprocessor.Proofs.Expansion.Lexed
import CPreprocessor.Proofs.Source.SideBySide
import CPreprocessor.Proofs.Source.Tokenize

/-!
# What `#` makes of an argument

The escapes of a string literal that `#` makes can be taken out again, and then it spells the words of
its argument with one blank between two of them (`Token.stringize_spells`). Outside of literals no
token of a source holds a quotation mark or a backslash, but for the backslash that stands alone.
-/

namespace CPreprocessor

open Lexeme

variable {c : Char} {cs u : List Char} {kind : Kind} {t : Token} {argument : List Token}

/-! ## Escapes -/

/-- Text without the backslashes that `escapeQuotes` puts in. -/
def unescapeQuotes : List Char → List Char
  | [] => []
  | [c] => [c]
  | c :: d :: cs =>
    if c = '\\' ∧ (d = '\\' ∨ d = '"') then d :: unescapeQuotes cs
    else c :: unescapeQuotes (d :: cs)

theorem escapeQuotes_append (u v : List Char) :
    escapeQuotes (u ++ v) = escapeQuotes u ++ escapeQuotes v := List.flatMap_append

theorem escapeQuotes_cons_of_quote (hc : c = '\\' ∨ c = '"') (u : List Char) :
    escapeQuotes (c :: u) = '\\' :: c :: escapeQuotes u := by
  rcases hc with rfl | rfl <;> rfl

theorem escapeQuotes_cons_of_plain (hc : ¬ (c = '\\' ∨ c = '"')) (u : List Char) :
    escapeQuotes (c :: u) = c :: escapeQuotes u := by
  rw [escapeQuotes, List.flatMap_cons, if_neg (by simpa using hc)]
  rfl

theorem mem_escapeQuotes_of_mem (h : c ∈ u) : c ∈ escapeQuotes u := by
  rw [escapeQuotes, List.mem_flatMap]
  refine ⟨c, h, ?_⟩
  split
  · exact List.mem_cons_of_mem _ List.mem_cons_self
  · exact List.mem_cons_self

theorem mem_of_mem_escapeQuotes (hc : c ≠ '\\') (h : c ∈ escapeQuotes u) : c ∈ u := by
  obtain ⟨d, hd, hmem⟩ := List.mem_flatMap.mp h
  split at hmem
  · obtain rfl := List.mem_singleton.mp ((List.mem_cons.mp hmem).resolve_left hc)
    exact hd
  · obtain rfl := List.mem_singleton.mp hmem
    exact hd

theorem escapeQuotes_eq_self (h : ∀ c ∈ u, ¬ (c = '\\' ∨ c = '"')) : escapeQuotes u = u := by
  induction u with
  | nil => rfl
  | cons c u ih =>
    obtain ⟨hc, hu⟩ := List.forall_mem_cons.mp h
    rw [escapeQuotes_cons_of_plain hc, ih hu]

theorem unescapeQuotes_cons_of_plain (hc : c ≠ '\\') (u : List Char) :
    unescapeQuotes (c :: u) = c :: unescapeQuotes u := by
  cases u with
  | nil => rfl
  | cons d u => rw [unescapeQuotes, if_neg fun h => hc h.1]

theorem unescapeQuotes_escapeQuotes (u : List Char) : unescapeQuotes (escapeQuotes u) = u := by
  induction u with
  | nil => rfl
  | cons c u ih =>
    by_cases hc : c = '\\' ∨ c = '"'
    · rw [escapeQuotes_cons_of_quote hc, unescapeQuotes, if_pos ⟨rfl, hc⟩, ih]
    · rw [escapeQuotes_cons_of_plain hc, unescapeQuotes_cons_of_plain (hc <| .inl ·), ih]

namespace Lexeme

/-- The body of a string literal goes on over escaped text. -/
theorem bodyLength_escapeQuotes (h : '\n' ∉ u) (v : List Char) :
    bodyLength '"' (escapeQuotes u ++ v) =
      (bodyLength '"' v).map (· + (escapeQuotes u).length) := by
  induction u with
  | nil => cases hv : bodyLength '"' v <;> simp [escapeQuotes, hv, Except.map]
  | cons c u ih =>
    obtain ⟨hnewline, hu⟩ := not_or.mp (mt List.mem_cons.mpr h)
    by_cases hc : c = '\\' ∨ c = '"'
    · have hescape : escapeLength (c :: (escapeQuotes u ++ v)) = .ok 1 := by
        rcases hc with rfl | rfl <;> rfl
      rw [escapeQuotes_cons_of_quote hc, List.cons_append, List.cons_append,
        bodyLength_escape (by decide) hescape, List.drop_succ_cons, List.drop_zero, ih hu]
      cases bodyLength '"' v <;> simp [Except.map, Nat.add_assoc]
    · obtain ⟨hbackslash, hquote⟩ := not_or.mp hc
      rw [escapeQuotes_cons_of_plain hc, List.cons_append,
        bodyLength_plain (Ne.symm hnewline) hquote hbackslash, ih hu]
      cases bodyLength '"' v <;> simp [Except.map, Nat.add_assoc]

/-- Escaped text between quotation marks reads as one string literal. -/
theorem first_escapeQuotes (h : '\n' ∉ u) :
    first '"' (escapeQuotes u ++ ['"']) = .ok (.string, (escapeQuotes u ++ ['"']).length) := by
  have hbody : bodyLength '"' (escapeQuotes u ++ ['"']) = .ok (escapeQuotes u ++ ['"']).length := by
    rw [bodyLength_escapeQuotes h, bodyLength_mark (by decide), List.length_append, Nat.add_comm]
    rfl
  have hplain : NoLayout '"' (escapeQuotes u ++ ['"']) := noLayout_of_class (.inr (.inr (.inl (.inl rfl))))
  rw [hplain.first_eq, literalLength, hbody]
  rfl

/-- Outside of literals no token but the backslash holds a backslash or a quotation mark. -/
theorem plain_of_first (h : first c cs = .ok (kind, cs.length)) (hkind : kind.isLayout = false)
    (hstray : kind = .other → c :: cs ≠ ['\\']) (hliteral : ¬ (kind = .string ∨ kind = .character)) :
    ∀ d ∈ c :: cs, ¬ (d = '\\' ∨ d = '"') := by
  have hname : ∀ d, isNameChar d = true → ¬ (d = '\\' ∨ d = '"') := by
    rintro d hd (rfl | rfl) <;> exact absurd hd (by decide)
  obtain ⟨hnumber, -, hn⟩ | ⟨-, ⟨hstart, h⟩ | ⟨-, ⟨hquote, h⟩ | ⟨hquote, h⟩⟩⟩ := first_cases h hkind
  · refine List.forall_mem_cons.mpr ⟨?_, fun d hd => ?_⟩
    · rintro (rfl | rfl) <;> exact absurd hnumber (by simp [startsNumber, Text.isDigit, Char.isDigit])
    · rcases mem_of_numberLength hn.symm d hd with hd | rfl | hd
      · exact hname d hd
      · decide
      · rintro (rfl | rfl) <;> exact absurd hd (by decide)
  · rcases kind_of_nameLength h with rfl | hstring | hcharacter
    · refine List.forall_mem_cons.mpr ⟨hname c (by rw [isNameChar, hstart, Bool.true_or]), ?_⟩
      exact fun d hd => hname d (isNameChar_of_identifier ‹_› d hd)
    · exact absurd (.inl hstring) hliteral
    · exact absurd (.inr hcharacter) hliteral
  · exact absurd (kind_of_literalLength h) hliteral
  · obtain ⟨-, hother⟩ | ⟨w, hw, hpre, hlength, -⟩ := punctuatorLength_cases c cs
    · rw [hother] at h
      obtain ⟨rfl, hn⟩ := Prod.mk.inj h
      obtain rfl := List.length_eq_zero_iff.mp hn.symm
      intro d hd
      obtain rfl := List.mem_singleton.mp hd
      rintro (rfl | rfl)
      · exact hstray rfl rfl
      · exact hquote (.inl rfl)
    · rw [hlength] at h
      obtain rfl := hpre.eq_of_length (Prod.mk.inj h).2
      intro d hd
      have hclass := (class_of_mem_punctuators _ hw d hd).1
      rintro (rfl | rfl) <;> exact absurd hclass (by decide)

end Lexeme

/-! ## Arguments -/

/-- The runs of significant tokens between layout. -/
def words (argument : List Token) : List (List Token) :=
  (argument.splitOnP Token.isLayout).filter fun word => !word.isEmpty

/-- Words with a blank before each of them. -/
def spaced (words : List (List Token)) : List Char :=
  (words.filter fun word => !word.isEmpty).flatMap fun word => ' ' :: spell word

theorem spaced_cons (t : Token) (word : List Token) (words : List (List Token)) :
    spaced ((t :: word) :: words) = ' ' :: (t.text.toList ++ spell word ++ spaced words) := by
  rw [spaced, List.filter_cons_of_pos rfl, List.flatMap_cons, spell_cons, spaced]
  simp only [List.cons_append]

theorem intercalate_cons (u : List Char) (us : List (List Char)) :
    [' '].intercalate (u :: us) = u ++ us.flatMap (' ' :: ·) := by
  induction us generalizing u with
  | nil => rw [List.intercalate_singleton, List.flatMap_nil, List.append_nil]
  | cons v us ih =>
    rw [List.intercalate_cons_cons, ih, List.flatMap_cons, List.append_assoc]
    rfl

namespace Token

/-- Whether a source has a token of this kind and spelling, with or without faults. -/
def Occurs (t : Token) : Prop :=
  ∃ s : Source, ∃ u ∈ s.scan.map Scanned.token ++ [s.endToken], u.form = t.form

/-- Whether a significant token is spelled on one line, and can be escaped as a whole. -/
structure Quotable (t : Token) : Prop where
  line : '\n' ∉ t.text.toList
  spelling : t.spelling = escapeQuotes t.text.toList

theorem Quotable.of_plain (hline : '\n' ∉ t.text.toList)
    (h : ¬ (t.kind = .string ∨ t.kind = .character) →
      ∀ c ∈ t.text.toList, ¬ (c = '\\' ∨ c = '"')) : t.Quotable := by
  refine ⟨hline, ?_⟩
  rw [Token.spelling]
  split
  · rfl
  · rename_i hkind
    exact (escapeQuotes_eq_self (h (by simpa using hkind))).symm

theorem Quotable.congr {r : Token} (h : t.Quotable) (hform : r.form = t.form) : r.Quotable := by
  obtain ⟨hkind, htext⟩ := Prod.mk.inj hform
  exact ⟨htext ▸ h.line, by rw [Token.spelling, hkind, htext]; exact h.spelling⟩

theorem Alone.quotable (h : t.Alone) (hlayout : t.isLayout = false)
    (hstray : t.form ≠ (.other, "\\")) : t.Quotable := by
  obtain ⟨c, cs, htext, hfirst⟩ := h.first_eq hlayout
  refine .of_plain (htext ▸ not_mem_newline_of_first hfirst hlayout) fun hliteral => ?_
  rw [htext]
  refine plain_of_first hfirst hlayout (fun hkind heq => hstray ?_) hliteral
  exact Prod.ext hkind (String.toList_inj.mp (htext.trans heq))

/-- A significant token of a source can be quoted, unless it is a backslash that stands alone. -/
theorem Occurs.quotable (h : t.Occurs) (hlayout : t.isLayout = false)
    (hstray : t.form ≠ (.other, "\\")) : t.Quotable := by
  obtain ⟨s, u, hu, hform⟩ := h
  suffices hquotable : u.Quotable from hquotable.congr hform.symm
  have hlayout : u.isLayout = false := (congrArg (·.1.isLayout) hform).trans hlayout
  rw [← hform] at hstray
  rcases List.mem_append.mp hu with hu | hu
  · obtain ⟨scanned, hscanned, rfl⟩ := List.mem_map.mp hu
    rcases Source.blank_or_first_of_mem_scan hscanned with hblank | ⟨c, cs, n, hfirst, htext⟩
    · rw [hblank] at hlayout
      cases hlayout
    rcases point_or_alone_of_first hfirst htext hlayout with ⟨-, htext⟩ | halone
    · have hpoint : scanned.token.text.toList = ['.'] := by
        rw [htext]
        rfl
      refine .of_plain (by rw [hpoint]; decide) fun _ => ?_
      rw [hpoint]
      exact List.forall_mem_singleton.mpr (by decide)
    · exact halone.quotable hlayout hstray
  · obtain rfl := List.mem_singleton.mp hu
    exact .of_plain List.not_mem_nil fun _ => List.forall_mem_nil _

/-- The blanks between the words of an argument, whatever is read first of it. -/
theorem spellings_eq (h : ∀ t ∈ argument, t.isLayout = false → t.Quotable) :
    spellings false false argument = escapeQuotes ([' '].intercalate ((words argument).map spell)) ∧
      spellings true true argument = escapeQuotes (spaced (argument.splitOnP isLayout)) ∧
      ∃ word after, argument.splitOnP isLayout = word :: after ∧
        spellings true false argument = escapeQuotes (spell word ++ spaced after) := by
  induction argument with
  | nil => exact ⟨rfl, rfl, [], [], rfl, rfl⟩
  | cons t argument ih =>
    obtain ⟨ht, hargument⟩ := List.forall_mem_cons.mp h
    obtain ⟨hfresh, hgap, word, after, hsplit, hbeside⟩ := ih hargument
    cases hlayout : t.isLayout with
    | true =>
      have hcons : (t :: argument).splitOnP isLayout = [] :: argument.splitOnP isLayout := by
        rw [List.splitOnP_cons_eq_if_modifyHead, if_pos hlayout]
      have hspellings : ∀ started gap, spellings started gap (t :: argument) =
          spellings started started argument := fun started gap => by
        rw [spellings, if_pos hlayout]
      refine ⟨?_, ?_, [], _, hcons, ?_⟩
      · have hwords : words (t :: argument) = words argument := by
          rw [words, hcons, List.filter_cons_of_neg (by decide), words]
        rw [hspellings, hfresh, hwords]
      · rw [hspellings, hgap, hcons]
        rfl
      · rw [hspellings, hgap]
        rfl
    | false =>
      have hcons : (t :: argument).splitOnP isLayout = (t :: word) :: after := by
        rw [List.splitOnP_cons_eq_if_modifyHead, if_neg (by rw [hlayout]; decide), hsplit]
        rfl
      have hspellings : ∀ started gap, spellings started gap (t :: argument) =
          (if gap then [' '] else []) ++
            escapeQuotes (t.text.toList ++ (spell word ++ spaced after)) := fun started gap => by
        rw [spellings, if_neg (by rw [hlayout]; decide), (ht hlayout).spelling, hbeside,
          List.append_assoc, escapeQuotes_append t.text.toList]
      refine ⟨?_, ?_, _, _, hcons, ?_⟩
      · have hwords : words (t :: argument) = (t :: word) :: after.filter fun word => !word.isEmpty := by
          rw [words, hcons, List.filter_cons_of_pos rfl]
        rw [hspellings, hwords, List.map_cons, intercalate_cons, List.flatMap_map, spell_cons,
          List.append_assoc]
        rfl
      · rw [hspellings, hcons, spaced_cons, escapeQuotes_cons_of_plain (by decide), List.append_assoc]
        rfl
      · rw [hspellings, spell_cons, List.append_assoc]
        rfl

theorem newline_not_mem_spellings (h : ∀ t ∈ argument, t.isLayout = false → t.Quotable)
    (started gap : Bool) : '\n' ∉ spellings started gap argument := by
  induction argument generalizing started gap with
  | nil => exact List.not_mem_nil
  | cons t argument ih =>
    obtain ⟨ht, hargument⟩ := List.forall_mem_cons.mp h
    rw [spellings]
    split
    · exact ih hargument _ _
    · rename_i hlayout
      have ht := ht (Bool.eq_false_iff.mpr hlayout)
      have hspelling : '\n' ∉ t.spelling := fun hmem =>
        ht.line (mem_of_mem_escapeQuotes (by decide) (ht.spelling ▸ hmem))
      simp only [List.mem_append, not_or]
      exact ⟨⟨by cases gap <;> decide, hspelling⟩, ih hargument _ _⟩

/-- Escaped text between quotation marks is one string token of a source. -/
theorem tokenize_quoted {s : Source} (h : '\n' ∉ escapeQuotes u)
    (htext : s.text.toList = '"' :: escapeQuotes u ++ ['"']) (lenient : Bool) :
    s.tokenize lenient =
      ([{ token := { kind := .string, text := s.text, location := s.locate ⟨s.firstLine, 1⟩ } }],
        .ok s.endToken) := by
  have halone : lexemes s.text.toList = [.token .string s.text.toList] :=
    alone_of_first (t := ⟨.string, s.text, default, ∅, false⟩) htext
      (first_escapeQuotes fun hmem => h (mem_escapeQuotes_of_mem hmem))
  have hdespliced : despliced s.text.toList = s.text.toList :=
    despliced_of_not_mem_newline (by rw [htext]; simp [h])
  have hplaces : s.places = ⟨s.firstLine, 1⟩ :: CPreprocessor.places
      (Place.after ⟨s.firstLine, 1⟩ '"') (escapeQuotes u ++ ['"']) := by
    rw [Source.places, htext]
    rfl
  have hscan : s.scan =
      [{ token := { kind := .string, text := s.text, location := s.locate ⟨s.firstLine, 1⟩ } }] := by
    rw [Source.scan, hdespliced, halone, hplaces, Source.settle, Source.settle, Source.token,
      String.ofList_toList]
  rw [Source.tokenize_eq, hscan]
  cases lenient <;> rfl

/-- The literal that spells an argument reads as one string token, and without its marks and escapes
it is the words of the argument with one blank between two of them. -/
theorem stringize_spells (hread : ∀ t ∈ argument, t.Occurs)
    (hstray : ∀ t ∈ argument, t.form ≠ (.other, "\\")) (site : Location) :
    ∃ body, (stringize argument site).text.toList = '"' :: body ++ ['"'] ∧
      unescapeQuotes body = [' '].intercalate ((words argument).map spell) ∧
      ∀ (s : Source) (lenient : Bool), s.text = (stringize argument site).text →
        s.tokenize lenient =
          ([{ token :=
              { kind := .string, text := s.text, location := s.locate ⟨s.firstLine, 1⟩ } }],
            .ok s.endToken) := by
  have hquotable : ∀ t ∈ argument, t.isLayout = false → t.Quotable := fun t ht hlayout =>
    (hread t ht).quotable hlayout (hstray t ht)
  obtain ⟨hspellings, -⟩ := spellings_eq hquotable
  refine ⟨spellings false false argument, String.toList_ofList, ?_, fun s lenient hs => ?_⟩
  · rw [hspellings, unescapeQuotes_escapeQuotes]
  · refine tokenize_quoted (hspellings ▸ newline_not_mem_spellings hquotable false false) ?_ lenient
    rw [hs, ← hspellings]
    exact String.toList_ofList

/-- A word before a literal with an escape, with layout between the two and behind them. -/
theorem stringize_spells_escape :
    let argument := ({ text := "a\t\"\\n\" " } : Source).scan.map Scanned.token
    let literal := stringize argument ⟨"<input>", 3, 1⟩
    (∀ t ∈ argument, t.Occurs) ∧ (∀ t ∈ argument, t.form ≠ (.other, "\\")) ∧
      literal.text = "\"a \\\"\\\\n\\\"\"" ∧
      (∃ body, literal.text.toList = '"' :: body ++ ['"'] ∧
        unescapeQuotes body = "a \"\\n\"".toList) ∧
      (({ text := literal.text } : Source).tokenize false).1.map (·.token.form) =
        [(.string, literal.text)] := by
  intro argument literal
  have hargument : argument.map form =
      [(.identifier, "a"), (.whitespace, "\t"), (.string, "\"\\n\""), (.whitespace, " ")] := by
    decide +kernel
  have hread : ∀ t ∈ argument, t.Occurs := fun t ht =>
    ⟨_, t, List.mem_append_left _ ht, rfl⟩
  have hstray : ∀ t ∈ argument, t.form ≠ (.other, "\\") := fun t ht =>
    fun heq => absurd (heq ▸ hargument ▸ List.mem_map_of_mem ht) (by decide)
  obtain ⟨body, hbody, hspelled, htoken⟩ := stringize_spells hread hstray ⟨"<input>", 3, 1⟩
  refine ⟨hread, hstray, by decide +kernel, ⟨body, hbody, hspelled.trans (by decide +kernel)⟩, ?_⟩
  rw [htoken _ _ rfl]
  rfl

end Token

end CPreprocessor
