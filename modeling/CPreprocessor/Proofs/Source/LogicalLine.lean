import Mathlib
import CPreprocessor.Proofs.Source.Seam
import CPreprocessor.Proofs.Source.SideBySide
import CPreprocessor.Proofs.Source.Splice

/-!
# A logical line where it stands

A source is cut around each of its logical lines: into the text above it, its own, and the text below
(`Source.mem_logicalLines_iff`).
-/

namespace CPreprocessor

open Lexeme

/-! ## Text without splices -/

section
variable {u a b : List Char}

/-- Where a text without its splices is cut, the text itself can be cut. -/
theorem exists_append_of_despliced (h : despliced u = a ++ b) :
    ∃ v w, u = v ++ w ∧ despliced v = a ∧ despliced w = b := by
  fun_induction despliced u generalizing a with
  | case1 =>
    obtain ⟨rfl, rfl⟩ := List.append_eq_nil_iff.mp h.symm
    exact ⟨[], [], rfl, rfl, rfl⟩
  | case2 cs ih =>
    obtain ⟨v, w, rfl, hv, hw⟩ := ih h
    exact ⟨'\\' :: '\n' :: v, w, rfl, hv, hw⟩
  | case3 cs ih =>
    obtain ⟨v, w, rfl, hv, hw⟩ := ih h
    exact ⟨'\\' :: '\r' :: '\n' :: v, w, rfl, hv, hw⟩
  | case4 c cs hsplice hreturn ih =>
    cases a with
    | nil =>
      refine ⟨[], c :: cs, rfl, rfl, ?_⟩
      rw [despliced, h, List.nil_append]
      · exact hsplice
      · exact hreturn
    | cons d a =>
      obtain ⟨rfl, hcs⟩ := List.cons.inj h
      obtain ⟨v, w, rfl, rfl, hw⟩ := ih hcs
      refine ⟨c :: v, w, rfl, ?_, hw⟩
      rw [despliced]
      · rintro rest rfl rfl
        exact hsplice (rest ++ w) rfl rfl
      · rintro rest rfl rfl
        exact hreturn (rest ++ w) rfl rfl

end

/-! ## Lexemes of a part of a text -/

namespace Lexeme

variable {c : Char} {cs w : List Char} {kind : Kind} {n : Nat}

/-- The lexeme at the start of a text is found without what follows the next newline after it. -/
theorem first_of_append (h : first c (cs ++ w) = .ok (kind, n)) (hmem : '\n' ∈ cs.drop n) :
    first c cs = .ok (kind, n) := by
  have hcs : '\n' ∈ cs := List.mem_of_mem_drop hmem
  cases hkind : kind.isLayout with
  | false =>
    have hmore := NoLayout.of_first h hkind
    have hplain : NoLayout c cs :=
      ⟨hmore.newline, hmore.blank, by rw [← head?_append_of_mem hcs w]; exact hmore.comment⟩
    rw [← hplain.first_append hcs w, h]
  | true =>
    obtain ⟨rfl, rfl, rfl⟩ | ⟨-, hblank, rfl, rfl⟩ | ⟨rfl, rfl, d, rest, m, hrest, rfl, hform⟩ :=
      first_layout_cases h hkind
    · rfl
    · rw [first_blank hblank, spanLength_append (by decide) hcs]
    · obtain ⟨e, cs, rfl⟩ := List.exists_cons_of_ne_nil (List.ne_nil_of_mem hcs)
      rw [List.cons_append] at hrest
      obtain ⟨rfl, rfl⟩ := List.cons.inj hrest
      rw [List.drop_succ_cons] at hmem
      rcases hform with ⟨rfl, rfl⟩ | ⟨rfl, hlength⟩
      · rw [first_line, spanLength_append (by decide) (List.mem_of_mem_drop hmem)]
      · have htake := commentLength_take hlength
        rw [take_append_of_mem hmem] at htake
        have hlength := commentLength_append htake (cs.drop m)
        rw [List.take_append_drop] at hlength
        rw [first_block, hlength]
        rfl

theorem first_error_of_append {cause : LexFault} (h : first c (cs ++ w) = .error cause)
    (hcause : cause ≠ .unterminatedComment) (hmem : '\n' ∈ cs) : first c cs = .error cause := by
  have hmore := NoLayout.of_error h hcause
  have hplain : NoLayout c cs :=
    ⟨hmore.newline, hmore.blank, by rw [← head?_append_of_mem hmem w]; exact hmore.comment⟩
  rw [← hplain.first_append hmem w, h]

end Lexeme

section
variable {c : Char} {cs u w x y : List Char} {l : Lexeme} {ls ls' : List Lexeme} {n : Nat}

/-- The extent of the first lexeme of a text. -/
theorem exists_of_lexemes (h : lexemes (c :: cs) = l :: ls) :
    ∃ n, n ≤ cs.length ∧ l.text = c :: cs.take n ∧ lexemes (cs.drop n) = ls := by
  rw [lexemes] at h
  cases hfirst : first c cs with
  | ok read =>
    rw [hfirst] at h
    obtain ⟨rfl, hls⟩ := List.cons.inj h
    exact ⟨read.2, le_length_of_first hfirst, rfl, hls⟩
  | error cause =>
    rw [hfirst] at h
    obtain ⟨rfl, hls⟩ := List.cons.inj h
    refine ⟨faultLength cause cs, ?_, rfl, hls⟩
    rw [faultLength]
    split
    · exact Nat.le_refl _
    · exact spanLength_le _ cs

theorem lexemes_cons_of_append (h : lexemes (c :: (cs ++ w)) = l :: ls)
    (hl : l.text.length = n + 1) (hmem : '\n' ∈ cs.drop n) :
    lexemes (c :: cs) = l :: lexemes (cs.drop n) := by
  have hcs : '\n' ∈ cs := List.mem_of_mem_drop hmem
  have hlt : n < (cs ++ w).length := by
    rw [List.length_append]
    exact Nat.lt_add_right _ (lt_length_of_mem_drop hmem)
  rw [lexemes] at h
  cases hfirst : first c (cs ++ w) with
  | ok read =>
    obtain ⟨kind, m⟩ := read
    rw [hfirst] at h
    obtain ⟨rfl, -⟩ := List.cons.inj h
    obtain rfl : m = n := by
      simp only [Lexeme.text, List.length_cons, List.length_take_of_le (le_length_of_first hfirst)] at hl
      omega
    rw [lexemes, first_of_append hfirst hmem]
    simp only
    rw [take_append_of_mem hmem]
  | error cause =>
    rw [hfirst] at h
    obtain ⟨rfl, -⟩ := List.cons.inj h
    have hcause : cause ≠ .unterminatedComment := by
      rintro rfl
      simp only [Lexeme.text, faultLength, if_true, List.take_length, List.length_cons] at hl
      omega
    have hsame : faultLength cause (cs ++ w) = faultLength cause cs := by
      rw [faultLength, if_neg hcause, faultLength, if_neg hcause, spanLength_append (by decide) hcs]
    obtain hn : faultLength cause cs = n := by
      have hle : faultLength cause cs ≤ cs.length := by
        rw [faultLength, if_neg hcause]
        exact spanLength_le _ cs
      simp only [Lexeme.text, hsame, List.take_append_of_le_length hle, List.length_cons,
        List.length_take_of_le hle] at hl
      omega
    rw [lexemes, first_error_of_append hfirst hcause hcs, hsame]
    simp only
    rw [hn, take_append_of_mem hmem]

theorem EndsLine.mem_newline (h : EndsLine ls) (hls : ∀ l ∈ ls, l ∈ lexemes u) (hne : ls ≠ []) :
    '\n' ∈ ls.flatMap Lexeme.text := by
  obtain ⟨text, hlast⟩ := h _ (List.getLast?_eq_some_getLast hne)
  have hmem := List.getLast_mem hne
  rw [hlast] at hmem
  rw [List.mem_flatMap]
  refine ⟨_, hmem, ?_⟩
  rw [text_newline (hls _ hmem)]
  exact List.mem_singleton_self _

/-- What is read of a text up to a line end is read of that part alone. -/
theorem lexemes_of_append (h : lexemes (x ++ y) = ls ++ ls') (hx : ls.flatMap Lexeme.text = x)
    (hends : EndsLine ls) : lexemes x = ls := by
  induction ls generalizing x with
  | nil => rw [← hx, List.flatMap_nil, lexemes]
  | cons l ls ih =>
    have hmem : ∀ l' ∈ l :: ls, l' ∈ lexemes (x ++ y) := fun l' hl' => by
      rw [h]
      exact List.mem_append_left _ hl'
    rw [List.flatMap_cons] at hx
    obtain ⟨c, cs, hcs⟩ := List.exists_cons_of_ne_nil (text_ne_nil (hmem l List.mem_cons_self))
    obtain rfl : c :: (cs ++ ls.flatMap Lexeme.text) = x := by rw [← hx, hcs, List.cons_append]
    rw [List.cons_append, List.cons_append] at h
    obtain ⟨n, hn, hl, hrest⟩ := exists_of_lexemes h
    -- the rest of the lexeme is all of `cs`
    obtain rfl : cs.length = n := by
      have hlength := congrArg List.length (hcs.symm.trans hl)
      rw [List.length_cons, List.length_cons, List.length_take_of_le hn] at hlength
      omega
    have hrest : lexemes (ls.flatMap Lexeme.text ++ y) = ls ++ ls' := by
      rw [← hrest, List.append_assoc, List.drop_left]
    by_cases hnil : ls = []
    · subst hnil
      obtain ⟨text, rfl⟩ := hends l rfl
      have htext := text_newline (hmem _ List.mem_cons_self)
      subst htext
      obtain ⟨rfl, rfl⟩ := List.cons.inj hcs
      cbv
    · have hnewline := hends.tail.mem_newline (fun l' hl' => hmem l' (List.mem_cons_of_mem l hl')) hnil
      rw [lexemes_cons_of_append h (by rw [hcs, List.length_cons]) (by rwa [List.drop_left]),
        List.drop_left, ih hrest rfl hends.tail]

end

/-! ## Lines of a source -/

namespace Source

variable {s : Source}

/-- A logical line of a source, with the text above it and the text below it. -/
structure Line (s : Source) where
  above : String
  text : String
  below : String
  text_eq : s.text = above ++ text ++ below
  /-- a new line begins with it -/
  endsLine : ({ s with text := above } : Source).EndsLine
  /-- a new line begins below it -/
  last : ({ s with text := above ++ text } : Source).EndsLine ∨ below = ""
  nonempty : lexemes (despliced text.toList) ≠ []
  /-- none begins within it -/
  single : ∀ l ∈ (lexemes (despliced text.toList)).dropLast, l.kind ≠ .newline

namespace Line

/-- The text of a line in its place. -/
def source (l : s.Line) : Source := ({ s with text := l.above } : Source).following l.text

def tokens (l : s.Line) : List Scanned := l.source.scan

/-- The text of a line without splices. -/
def chars (l : s.Line) : List Char := despliced l.text.toList

def lexemes (l : s.Line) : List Lexeme := CPreprocessor.lexemes l.chars

end Line

theorem map_kind_scan (s : Source) :
    s.scan.map (fun t => t.token.kind) =
      (CPreprocessor.lexemes (despliced s.text.toList)).map Lexeme.kind :=
  s.map_scan fun p l => by cases l <;> rfl

theorem endsLine_of_lexemes (h : CPreprocessor.EndsLine (lexemes (despliced s.text.toList))) :
    s.EndsLine := by
  intro t ht
  have hlast := congrArg List.getLast? s.map_kind_scan
  rw [List.getLast?_map, List.getLast?_map, ht] at hlast
  obtain ⟨l, hl, hkind⟩ := Option.map_eq_some_iff.mp hlast.symm
  obtain ⟨text, rfl⟩ := h l hl
  exact hkind.symm

theorem linesFrom_of_dropLast {line ts : List Scanned} (hne : ts ≠ [])
    (h : ∀ t ∈ ts.dropLast, t.token.kind ≠ .newline) :
    linesFrom line ts = [line.reverse ++ ts] := by
  induction ts generalizing line with
  | nil => exact absurd rfl hne
  | cons t ts ih =>
    cases ts with
    | nil =>
      rw [linesFrom, linesFrom, linesFrom, List.reverse_cons]
      split
      · rfl
      · rfl
    | cons u ts =>
      rw [List.dropLast_cons_of_ne_nil (List.cons_ne_nil _ _)] at h
      obtain ⟨ht, hts⟩ := List.forall_mem_cons.mp h
      rw [linesFrom, if_neg ht, ih (List.cons_ne_nil _ _) hts, List.reverse_cons, List.append_assoc]
      rfl

theorem kind_of_mem_dropLast
    (h : ∀ l ∈ (CPreprocessor.lexemes (despliced s.text.toList)).dropLast, l.kind ≠ .newline) :
    ∀ t ∈ s.scan.dropLast, t.token.kind ≠ .newline := by
  intro t ht
  have hmem : t.token.kind ∈ (s.scan.map fun t => t.token.kind).dropLast := by
    rw [← List.map_dropLast]
    exact List.mem_map_of_mem ht
  rw [map_kind_scan, ← List.map_dropLast] at hmem
  obtain ⟨l, hl, heq⟩ := List.mem_map.mp hmem
  rw [← heq]
  exact h l hl

/-- A source with no line end before its last token is one logical line. -/
theorem logicalLines_of_dropLast (hne : CPreprocessor.lexemes (despliced s.text.toList) ≠ [])
    (h : ∀ l ∈ (CPreprocessor.lexemes (despliced s.text.toList)).dropLast, l.kind ≠ .newline) :
    s.logicalLines = [s.scan] := by
  refine linesFrom_of_dropLast (fun hnil => ?_) (kind_of_mem_dropLast h)
  have hkinds := s.map_kind_scan
  rw [hnil] at hkinds
  exact hne (List.map_eq_nil_iff.mp hkinds.symm)

namespace Line

theorem logicalLines_source (l : s.Line) : l.source.logicalLines = [l.tokens] :=
  logicalLines_of_dropLast l.nonempty l.single

theorem eq_extend (l : s.Line) :
    s = (({ s with text := l.above } : Source).extend l.text).extend l.below := by
  rw [extend, extend, ← l.text_eq]

theorem mem_logicalLines (l : s.Line) : l.tokens ∈ s.logicalLines := by
  have hmem : l.tokens ∈ (({ s with text := l.above } : Source).extend l.text).logicalLines := by
    rw [logicalLines_extend l.endsLine]
    refine List.mem_append_right _ ?_
    rw [show (({ s with text := l.above } : Source).following l.text).logicalLines = _ from
      l.logicalLines_source]
    exact List.mem_singleton_self _
  have hlines : s.logicalLines = _ := congrArg Source.logicalLines l.eq_extend
  rw [hlines]
  rcases l.last with hends | hbelow
  · have hends : (({ s with text := l.above } : Source).extend l.text).EndsLine := hends
    rw [logicalLines_extend hends]
    exact List.mem_append_left _ hmem
  · rw [hbelow, extend, String.append_empty]
    exact hmem

/-- The first logical line of a source. -/
def first {text below : String} (h : s.text = text ++ below)
    (hlast : ({ s with text } : Source).EndsLine ∨ below = "")
    (hne : CPreprocessor.lexemes (despliced text.toList) ≠ [])
    (hsingle : ∀ l ∈ (CPreprocessor.lexemes (despliced text.toList)).dropLast, l.kind ≠ .newline) :
    s.Line where
  above := ""
  text := text
  below := below
  text_eq := by rw [h, String.empty_append]
  endsLine := endsLine_of_lexemes (by
    rw [show despliced "".toList = [] from rfl, CPreprocessor.lexemes]
    rintro l ⟨⟩)
  last := by rwa [String.empty_append]
  nonempty := hne
  single := hsingle

theorem tokens_first {text below : String} (h : s.text = text ++ below)
    (hlast : ({ s with text } : Source).EndsLine ∨ below = "")
    (hne : CPreprocessor.lexemes (despliced text.toList) ≠ [])
    (hsingle : ∀ l ∈ (CPreprocessor.lexemes (despliced text.toList)).dropLast, l.kind ≠ .newline) :
    (first h hlast hne hsingle).tokens = ({ s with text } : Source).scan := by
  have hfirst : s.firstLine + (0 : Nat) = s.firstLine := Int.add_zero _
  rw [tokens, source, first, following]
  simp only
  rw [show ({ s with text := "" } : Source).newlines = 0 from rfl, hfirst]

/-- A logical line of what follows the beginning of a source. -/
def lower {s' : Source} {text : String} (h' : s'.EndsLine) (l : (s'.following text).Line) :
    (s'.extend text).Line where
  above := s'.text ++ l.above
  text := l.text
  below := l.below
  text_eq := by
    have htext : text = l.above ++ l.text ++ l.below := l.text_eq
    rw [show (s'.extend text).text = s'.text ++ text from rfl]
    generalize l.above = above, l.text = own, l.below = below at htext
    rw [htext, String.append_assoc, String.append_assoc, String.append_assoc]
  endsLine := (h'.extend l.endsLine : (s'.extend l.above).EndsLine)
  last := l.last.imp_left fun hends => by
    rw [String.append_assoc]
    exact (h'.extend hends : (s'.extend (l.above ++ l.text)).EndsLine)
  nonempty := l.nonempty
  single := l.single

theorem tokens_lower {s' : Source} {text : String} (h' : s'.EndsLine)
    (l : (s'.following text).Line) : (l.lower h').tokens = l.tokens := by
  have hlines := newlines_extend s' l.above
  have hplace : (l.lower h').source = l.source := by
    have hline : s'.firstLine + ((s'.extend l.above).newlines : Int) =
        s'.firstLine + s'.newlines + l.above.toList.count '\n' := by
      rw [hlines, Int.natCast_add, Int.add_assoc]
    exact congrArg (Source.mk l.text s'.file) hline
  rw [tokens, hplace, tokens]

end Line

theorem exists_newline {ls : List Lexeme} (h : ∃ l ∈ ls, l.kind = .newline) :
    ∃ front text back, ls = front ++ .token .newline text :: back ∧
      ∀ l ∈ front, l.kind ≠ .newline := by
  induction ls with
  | nil =>
    obtain ⟨l, hl, -⟩ := h
    exact absurd hl List.not_mem_nil
  | cons l ls ih =>
    by_cases hl : l.kind = .newline
    · cases l with
      | token kind text =>
        obtain rfl : kind = .newline := hl
        exact ⟨[], text, ls, rfl, List.forall_mem_nil _⟩
      | fault cause skipped => cases hl
    · obtain ⟨l', hl', hkind⟩ := h
      have hmem : l' ∈ ls := (List.mem_cons.mp hl').resolve_left fun heq => hl (heq ▸ hkind)
      obtain ⟨front, text, back, rfl, hfront⟩ := ih ⟨l', hmem, hkind⟩
      exact ⟨l :: front, text, back, rfl, List.forall_mem_cons.mpr ⟨hl, hfront⟩⟩

/-- A source with a line end can be cut after the first one. -/
theorem exists_extend (h : ∃ l ∈ lexemes (despliced s.text.toList), l.kind = .newline) :
    ∃ text below, s.text = text ++ below ∧ text ≠ "" ∧ ({ s with text } : Source).EndsLine ∧
      CPreprocessor.lexemes (despliced text.toList) ≠ [] ∧
      ∀ l ∈ (CPreprocessor.lexemes (despliced text.toList)).dropLast, l.kind ≠ .newline := by
  obtain ⟨front, mark, back, hlexemes, hfront⟩ := exists_newline h
  rw [List.append_cons] at hlexemes
  have hchars := flatMap_text_lexemes (despliced s.text.toList)
  rw [hlexemes, List.flatMap_append] at hchars
  obtain ⟨text, below, hs, htext, -⟩ := exists_append_of_despliced hchars.symm
  rw [← hchars] at hlexemes
  have hends : CPreprocessor.EndsLine (front ++ [Lexeme.token .newline mark]) := by
    intro l hl
    rw [List.getLast?_concat] at hl
    exact ⟨mark, (Option.some.inj hl).symm⟩
  have hread := lexemes_of_append hlexemes rfl hends
  rw [← htext, ← String.toList_ofList (l := text)] at hread
  refine ⟨String.ofList text, String.ofList below, ?_, ?_, endsLine_of_lexemes (hread ▸ hends), ?_, ?_⟩
  · rw [← String.ofList_append, ← hs, String.ofList_toList]
  · intro hnil
    rw [hnil] at hread
    have hlength := congrArg List.length hread
    rw [show despliced "".toList = [] from rfl, CPreprocessor.lexemes, List.length_append] at hlength
    exact absurd hlength (by simp)
  · rw [hread]
    exact List.append_ne_nil_of_right_ne_nil _ (List.cons_ne_nil _ _)
  · rw [hread, List.dropLast_concat]
    exact hfront

/-- The logical lines of a source are those at which it can be cut. -/
theorem mem_logicalLines_iff {line : List Scanned} :
    line ∈ s.logicalLines ↔ ∃ l : s.Line, l.tokens = line := by
  refine ⟨fun h => ?_, fun ⟨l, hl⟩ => hl ▸ l.mem_logicalLines⟩
  induction hlength : s.text.toList.length using Nat.strongRecOn generalizing s with
  | ind length ih =>
    by_cases hend : ∃ l ∈ lexemes (despliced s.text.toList), l.kind = .newline
    · obtain ⟨text, below, hs, htext, hends, hne, hsingle⟩ := exists_extend hend
      have hextend : s = ({ s with text } : Source).extend below := by rw [extend, ← hs]
      have hfirst : ({ s with text } : Source).logicalLines = [({ s with text } : Source).scan] :=
        logicalLines_of_dropLast hne hsingle
      have hlines : s.logicalLines = _ :=
        (congrArg Source.logicalLines hextend).trans (logicalLines_extend hends below)
      rw [hlines, hfirst, List.singleton_append] at h
      rcases List.mem_cons.mp h with rfl | h
      · exact ⟨.first hs (.inl hends) hne hsingle, Line.tokens_first ..⟩
      · have hshort : below.toList.length < length := by
          have hpos : text.toList ≠ [] := fun hnil => htext (String.toList_eq_nil_iff.mp hnil)
          rw [← hlength, hs, String.toList_append, List.length_append]
          have := List.length_pos_iff.mpr hpos
          omega
        obtain ⟨l, hl⟩ := ih _ hshort h rfl
        rw [hextend]
        exact ⟨l.lower hends, (l.tokens_lower hends).trans hl⟩
    · rw [not_exists] at hend
      have hnone : ∀ l ∈ lexemes (despliced s.text.toList), l.kind ≠ .newline :=
        fun l hl hkind => hend l ⟨hl, hkind⟩
      by_cases hne : lexemes (despliced s.text.toList) = []
      · have hscan : s.scan = [] := by rw [scan, hne, settle]
        rw [logicalLines, hscan] at h
        exact absurd h List.not_mem_nil
      · have hsingle := fun l hl => hnone l (List.dropLast_subset _ hl)
        rw [logicalLines_of_dropLast hne hsingle] at h
        obtain rfl := List.mem_singleton.mp h
        exact ⟨.first (String.append_empty).symm (.inr rfl) hne hsingle, Line.tokens_first ..⟩

end Source

end CPreprocessor
