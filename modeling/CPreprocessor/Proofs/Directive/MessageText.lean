import Mathlib
import CPreprocessor.Proofs.Expansion.Lexed
import CPreprocessor.Proofs.Source.LineText

/-!
# A directive by its text

What a line that asks for a message looks like, and how the lexer reads a text that looks so. The lexer
and the text tell the same unless a comment stands before the name of the directive or a character
before or after the name is one that the lexer sees in another way.
-/

namespace CPreprocessor

/-! ## The text of a line that asks for a message -/

namespace MessageLine

variable {line rest sp₁ sp₂ word : List Char} {d : Char}

/-- How a line that asks for a message is written: a `#` and the name, among white space, and the
message. -/
structure Shape (line sp₁ sp₂ word rest : List Char) : Prop where
  text : line = sp₁ ++ '#' :: (sp₂ ++ (word ++ rest))
  space₁ : ∀ c ∈ sp₁, Text.isSpace c = true
  space₂ : ∀ c ∈ sp₂, Text.isSpace c = true
  word : word = "error".toList ∨ word = "warning".toList
  stop : ∀ c ∈ rest.head?, Text.isWordChar c = false

theorem head?_word (hword : word = "error".toList ∨ word = "warning".toList) (us : List Char) :
    ∀ c ∈ (word ++ us).head?, Text.isSpace c = false := by
  rcases hword with rfl | rfl
  · rintro c ⟨⟩
    decide
  · rintro c ⟨⟩
    decide

theorem Shape.dropWhile (h : Shape line sp₁ sp₂ word rest) :
    line.dropWhile Text.isSpace = '#' :: (sp₂ ++ (word ++ rest)) ∧
      (sp₂ ++ (word ++ rest)).dropWhile Text.isSpace = word ++ rest := by
  constructor
  · rw [h.text, dropWhile_append_of_stop h.space₁]
    rintro c ⟨⟩
    decide
  · exact dropWhile_append_of_stop h.space₂ (head?_word h.word rest)

theorem afterWord?_eq_some_iff :
    afterWord? word line = some rest ↔
      line = word ++ rest ∧ ∀ c ∈ rest.head?, Text.isWordChar c = false := by
  have hstop : (rest.head?.any Text.isWordChar) = false ↔
      ∀ c ∈ rest.head?, Text.isWordChar c = false := Option.any_eq_false ..
  rw [← hstop, afterWord?]
  constructor
  · intro h
    split at h
    · rename_i hpre
      obtain ⟨after, rfl⟩ := List.isPrefixOf_iff_prefix.mp hpre
      simp only [List.drop_left] at h
      split at h
      · cases h
      · rename_i hany
        cases h
        exact ⟨rfl, Bool.eq_false_iff.mpr hany⟩
    · cases h
  · rintro ⟨rfl, hany⟩
    rw [if_pos (List.isPrefixOf_iff_prefix.mpr (List.prefix_append word rest))]
    simp only [List.drop_left, hany, Bool.false_eq_true, if_false]

/-- A message is found on the lines that are written like that. -/
theorem message?_eq_some_iff :
    message? line = some rest ↔ ∃ sp₁ sp₂ word, Shape line sp₁ sp₂ word rest := by
  constructor
  · intro h
    unfold message? at h
    split at h
    · rename_i after hafter
      have hline := List.takeWhile_append_dropWhile (p := Text.isSpace) (l := line)
      have hrest := List.takeWhile_append_dropWhile (p := Text.isSpace) (l := after)
      have hspace : ∀ (us : List Char), ∀ c ∈ us.takeWhile Text.isSpace, Text.isSpace c = true :=
        fun us => List.all_eq_true.mp List.all_takeWhile
      obtain ⟨word, hword, htext, hstop⟩ : ∃ word, (word = "error".toList ∨ word = "warning".toList) ∧
          after.dropWhile Text.isSpace = word ++ rest ∧
            ∀ c ∈ rest.head?, Text.isWordChar c = false := by
        rcases Option.or_eq_some_iff.mp h with h | ⟨-, h⟩
        · exact ⟨_, .inl rfl, afterWord?_eq_some_iff.mp h⟩
        · exact ⟨_, .inr rfl, afterWord?_eq_some_iff.mp h⟩
      refine ⟨_, _, word, ?_, hspace line, hspace after, hword, hstop⟩
      rw [← htext, hrest, ← hafter, hline]
    · cases h
  · rintro ⟨sp₁, sp₂, word, h⟩
    obtain ⟨hline, hafter⟩ := h.dropWhile
    have hmessage : message? line = (afterWord? "error".toList (word ++ rest)).or
        (afterWord? "warning".toList (word ++ rest)) := by
      rw [message?, hline]
      simp only
      rw [hafter]
    rw [hmessage]
    rcases h.word with rfl | rfl
    · rw [afterWord?_eq_some_iff.mpr ⟨rfl, h.stop⟩, Option.some_or]
    · have hnone : afterWord? "error".toList ("warning".toList ++ rest) = none := rfl
      rw [hnone, Option.none_or, afterWord?_eq_some_iff.mpr ⟨rfl, h.stop⟩]

theorem shape_concat_iff (hd : Text.isWordChar d = false) :
    Shape (line ++ [d]) sp₁ sp₂ word rest ↔
      ∃ rest', rest = rest' ++ [d] ∧ Shape line sp₁ sp₂ word rest' := by
  constructor
  · intro h
    have htext := h.text
    cases rest using List.reverseRecOn with
    | nil =>
      -- the line would end in the last letter of the name
      obtain ⟨front, e, hword, he⟩ : ∃ front e, word = front ++ [e] ∧ Text.isWordChar e = true := by
        rcases h.word with rfl | rfl
        · exact ⟨"erro".toList, 'r', rfl, by decide⟩
        · exact ⟨"warnin".toList, 'g', rfl, by decide⟩
      have hsplit : sp₁ ++ '#' :: (sp₂ ++ (word ++ [])) =
          (sp₁ ++ '#' :: (sp₂ ++ front)) ++ [e] := by simp [hword]
      rw [hsplit] at htext
      obtain rfl : d = e := (List.cons.inj (List.append_inj' htext rfl).2).1
      rw [he] at hd
      cases hd
    | append_singleton rest' e =>
      have hsplit : sp₁ ++ '#' :: (sp₂ ++ (word ++ (rest' ++ [e]))) =
          (sp₁ ++ '#' :: (sp₂ ++ (word ++ rest'))) ++ [e] := by simp
      rw [hsplit] at htext
      obtain ⟨rfl, he⟩ := List.append_inj' htext rfl
      obtain rfl : d = e := (List.cons.inj he).1
      refine ⟨rest', rfl, rfl, h.space₁, h.space₂, h.word, fun c hc => h.stop c ?_⟩
      rw [List.head?_append, Option.mem_def.mp hc]
      rfl
  · rintro ⟨rest', rfl, h⟩
    refine ⟨by rw [h.text]; simp, h.space₁, h.space₂, h.word, fun c hc => ?_⟩
    cases rest' with
    | nil =>
      cases hc
      exact hd
    | cons e rest' => exact h.stop c hc

/-- One more character at the end of a line is one more at the end of the message. -/
theorem message?_concat (hd : Text.isWordChar d = false) (line : List Char) :
    message? (line ++ [d]) = (message? line).map (· ++ [d]) := by
  refine Option.ext fun rest => ?_
  rw [message?_eq_some_iff, Option.map_eq_some_iff]
  simp only [shape_concat_iff hd, message?_eq_some_iff]
  constructor
  · rintro ⟨sp₁, sp₂, word, rest', rfl, h⟩
    exact ⟨rest', ⟨sp₁, sp₂, word, h⟩, rfl⟩
  · rintro ⟨rest', ⟨sp₁, sp₂, word, h⟩, rfl⟩
    exact ⟨sp₁, sp₂, word, rest', rfl, h⟩

end MessageLine

/-! ## A directive by its text -/

namespace Lexeme

variable {u name sp₁ sp₂ word rest : List Char} {lead gap after ls : List Lexeme}

/-- Whether a lexeme only keeps others of its line apart. -/
def IsSpacing (x : Lexeme) : Prop :=
  ∃ text, x = .token .whitespace text ∨ x = .token .comment text

theorem IsSpacing.kind_ne {x : Lexeme} (h : x.IsSpacing) : x.kind ≠ .identifier := by
  obtain ⟨text, rfl | rfl⟩ := h
  · rintro ⟨⟩
  · rintro ⟨⟩

/-- The lexemes of a directive: spacing, the `#`, more spacing, the name, and what follows it. -/
structure Directs (ls lead gap after : List Lexeme) (name : List Char) : Prop where
  lexemes : ls = lead ++ .token .punctuator ['#'] :: (gap ++ .token .identifier name :: after)
  lead : ∀ x ∈ lead, x.IsSpacing
  gap : ∀ x ∈ gap, x.IsSpacing

theorem Directs.text (h : Directs (CPreprocessor.lexemes u) lead gap after name) :
    u = lead.flatMap Lexeme.text ++
      '#' :: (gap.flatMap Lexeme.text ++ (name ++ after.flatMap Lexeme.text)) := by
  conv_lhs => rw [← flatMap_text_lexemes u, h.lexemes]
  rw [List.flatMap_append, List.flatMap_cons, List.flatMap_append, List.flatMap_cons]
  rfl

theorem isBlank_of_whitespace {text : List Char}
    (h : .token .whitespace text ∈ CPreprocessor.lexemes u) : ∀ c ∈ text, isBlank c = true := by
  obtain ⟨c, cs, n, hfirst, rfl⟩ := exists_first_of_mem_lexemes h
  obtain ⟨-, hkind, -⟩ | ⟨-, hblank, -, rfl⟩ | ⟨-, hkind, -⟩ := first_layout_cases hfirst rfl
  · cases hkind
  · refine List.forall_mem_cons.mpr ⟨hblank, spanLength_eq_length_iff.mp ?_⟩
    rw [spanLength_take_of_le (Nat.le_refl _), List.length_take_of_le (spanLength_le _ _)]
  · cases hkind

theorem exists_of_comment {text : List Char} (h : .token .comment text ∈ CPreprocessor.lexemes u) :
    ∃ rest, text = '/' :: rest := by
  obtain ⟨c, cs, n, hfirst, rfl⟩ := exists_first_of_mem_lexemes h
  obtain ⟨-, hkind, -⟩ | ⟨-, -, hkind, -⟩ | ⟨rfl, -⟩ := first_layout_cases hfirst rfl
  · cases hkind
  · cases hkind
  · exact ⟨_, rfl⟩

/-- Spacing is blank up to the first comment in it. -/
theorem spacing_cases (hmem : ∀ x ∈ ls, x ∈ CPreprocessor.lexemes u)
    (h : ∀ x ∈ ls, x.IsSpacing) :
    ((∀ x ∈ ls, x.kind ≠ .comment) ∧ ∀ c ∈ ls.flatMap Lexeme.text, isBlank c = true) ∨
      (∃ x ∈ ls, x.kind = .comment) ∧
        ∃ blank rest, ls.flatMap Lexeme.text = blank ++ '/' :: rest ∧ ∀ c ∈ blank, isBlank c = true := by
  induction ls with
  | nil => exact .inl ⟨List.forall_mem_nil _, List.forall_mem_nil _⟩
  | cons x ls ih =>
    obtain ⟨hx, hrest⟩ := List.forall_mem_cons.mp hmem
    obtain ⟨⟨text, hkind⟩, hls⟩ := List.forall_mem_cons.mp h
    rw [List.flatMap_cons]
    rcases hkind with rfl | rfl
    · have hblank := isBlank_of_whitespace hx
      obtain ⟨hnone, hall⟩ | ⟨⟨y, hy, hcomment⟩, blank, after, hafter, hall⟩ := ih hrest hls
      · exact .inl ⟨List.forall_mem_cons.mpr ⟨by rintro ⟨⟩, hnone⟩,
          List.forall_mem_append.mpr ⟨hblank, hall⟩⟩
      · refine .inr ⟨⟨y, List.mem_cons_of_mem _ hy, hcomment⟩, text ++ blank, after, ?_,
          List.forall_mem_append.mpr ⟨hblank, hall⟩⟩
        rw [hafter, List.append_assoc]
        rfl
    · obtain ⟨rest, rfl⟩ := exists_of_comment hx
      exact .inr ⟨⟨_, List.mem_cons_self, rfl⟩, [], rest ++ ls.flatMap Lexeme.text, rfl,
        List.forall_mem_nil _⟩

theorem isSpace_of_isBlank {c : Char} (h : isBlank c = true) :
    Text.isSpace c = true ∧ c ≠ '\n' := by
  have hcases : c = ' ' ∨ c = '\t' ∨ c = '\x0c' ∨ c = '\x0b' ∨ c = '\r' := by
    simpa [isBlank, or_assoc] using h
  rcases hcases with rfl | rfl | rfl | rfl | rfl <;> decide

/-- The text up to the first newline, where blanks stand before another character. -/
theorem takeWhile_blank {blank : List Char} (hblank : ∀ c ∈ blank, isBlank c = true)
    (us : List Char) :
    (blank ++ us).takeWhile (· ≠ '\n') = blank ++ us.takeWhile (· ≠ '\n') :=
  List.takeWhile_append_of_pos fun c hc => decide_eq_true (isSpace_of_isBlank (hblank c hc)).2

theorem dropWhile_blank {blank : List Char} {c : Char} (hblank : ∀ c ∈ blank, isBlank c = true)
    (hc : Text.isSpace c = false) (us : List Char) :
    (blank ++ c :: us).dropWhile Text.isSpace = c :: us := by
  refine dropWhile_append_of_stop (fun d hd => (isSpace_of_isBlank (hblank d hd)).1) ?_
  rintro d ⟨⟩
  exact hc

/-- Whether the text of a directive shows that it is one: no comment stands before its name, and what
comes after the name is no word character. -/
structure Shown (lead gap after : List Lexeme) : Prop where
  lead : ∀ x ∈ lead, x.kind ≠ .comment
  gap : ∀ x ∈ gap, x.kind ≠ .comment
  stop : ∀ c ∈ (after.flatMap Lexeme.text).head?, Text.isWordChar c = false

theorem stop_takeWhile_iff {us : List Char} :
    (∀ c ∈ (us.takeWhile (· ≠ '\n')).head?, Text.isWordChar c = false) ↔
      ∀ c ∈ us.head?, Text.isWordChar c = false := by
  rw [List.head?_takeWhile]
  constructor
  · intro h c hc
    by_cases hnewline : c = '\n'
    · subst hnewline
      decide
    · exact h c (Option.mem_filter_iff.mpr ⟨hc, decide_eq_true hnewline⟩)
  · exact fun h c hc => h c (Option.mem_filter_iff.mp hc).1

theorem takeWhile_name (hname : name = "error".toList ∨ name = "warning".toList) (us : List Char) :
    (name ++ us).takeWhile (· ≠ '\n') = name ++ us.takeWhile (· ≠ '\n') := by
  have hnewline : '\n' ∉ name := by
    rcases hname with rfl | rfl
    · decide
    · decide
  exact List.takeWhile_append_of_pos fun c hc => decide_eq_true fun heq => hnewline (heq ▸ hc)

theorem Directs.mem_lead (h : Directs (CPreprocessor.lexemes u) lead gap after name) :
    ∀ x ∈ lead, x ∈ CPreprocessor.lexemes u := fun x hx => by
  rw [h.lexemes]
  exact List.mem_append_left _ hx

theorem Directs.mem_gap (h : Directs (CPreprocessor.lexemes u) lead gap after name) :
    ∀ x ∈ gap, x ∈ CPreprocessor.lexemes u := fun x hx => by
  rw [h.lexemes]
  exact List.mem_append_right _ (List.mem_cons_of_mem _ (List.mem_append_left _ hx))

theorem Directs.blank_of_shown (h : Directs (CPreprocessor.lexemes u) lead gap after name)
    (hshown : Shown lead gap after) :
    (∀ c ∈ lead.flatMap Lexeme.text, isBlank c = true) ∧
      ∀ c ∈ gap.flatMap Lexeme.text, isBlank c = true := by
  constructor
  · obtain ⟨-, hblank⟩ | ⟨⟨x, hx, hcomment⟩, -⟩ := spacing_cases h.mem_lead h.lead
    · exact hblank
    · exact absurd hcomment (hshown.lead x hx)
  · obtain ⟨-, hblank⟩ | ⟨⟨x, hx, hcomment⟩, -⟩ := spacing_cases h.mem_gap h.gap
    · exact hblank
    · exact absurd hcomment (hshown.gap x hx)

open MessageLine in
theorem Directs.message?_of_shown (h : Directs (CPreprocessor.lexemes u) lead gap after name)
    (hname : name = "error".toList ∨ name = "warning".toList) (hshown : Shown lead gap after) :
    message? (u.takeWhile (· ≠ '\n')) = some ((after.flatMap Lexeme.text).takeWhile (· ≠ '\n')) := by
  obtain ⟨hlead, hgap⟩ := h.blank_of_shown hshown
  refine message?_eq_some_iff.mpr ⟨lead.flatMap Lexeme.text, gap.flatMap Lexeme.text, name, ?_,
    fun c hc => (isSpace_of_isBlank (hlead c hc)).1, fun c hc => (isSpace_of_isBlank (hgap c hc)).1,
    hname, stop_takeWhile_iff.mpr hshown.stop⟩
  conv_lhs => rw [h.text]
  rw [takeWhile_blank hlead, List.takeWhile_cons_of_pos (by decide), takeWhile_blank hgap,
    takeWhile_name hname]

open MessageLine in
/-- A directive whose text looks like one for a message has no comment before its name, and its name
begins as the name that the text shows. -/
theorem Directs.of_shape (h : Directs (CPreprocessor.lexemes u) lead gap after name)
    (hshape : MessageLine.Shape (u.takeWhile (· ≠ '\n')) sp₁ sp₂ word rest) :
    (∀ x ∈ lead, x.kind ≠ .comment) ∧ (∀ x ∈ gap, x.kind ≠ .comment) ∧
      ((name ++ after.flatMap Lexeme.text).takeWhile (· ≠ '\n')).dropWhile Text.isSpace =
        word ++ rest := by
  obtain ⟨hhash, hword⟩ := hshape.dropWhile
  have htext := h.text
  obtain ⟨hlead, hblank⟩ | ⟨-, blank, more, hmore, hblank⟩ := spacing_cases h.mem_lead h.lead
  swap
  · -- the first character that is no space is that of a comment
    rw [htext, hmore, List.append_assoc, List.cons_append, takeWhile_blank hblank,
      List.takeWhile_cons_of_pos (by decide), dropWhile_blank hblank (by decide)] at hhash
    exact absurd (List.cons.inj hhash).1 (by decide)
  rw [htext, takeWhile_blank hblank, List.takeWhile_cons_of_pos (by decide),
    dropWhile_blank hblank (by decide)] at hhash
  have hafter := (List.cons.inj hhash).2
  rw [← hafter] at hword
  obtain ⟨hgap, hblank⟩ | ⟨-, blank, more, hmore, hblank⟩ := spacing_cases h.mem_gap h.gap
  swap
  · rw [hmore, List.append_assoc, List.cons_append, takeWhile_blank hblank,
      List.takeWhile_cons_of_pos (by decide), dropWhile_blank hblank (by decide)] at hword
    rcases hshape.word with rfl | rfl
    · exact absurd (List.cons.inj hword).1 (by decide)
    · exact absurd (List.cons.inj hword).1 (by decide)
  rw [takeWhile_blank hblank,
    List.dropWhile_append_of_pos fun c hc => (isSpace_of_isBlank (hblank c hc)).1] at hword
  exact ⟨hlead, hgap, hword⟩

open MessageLine in
theorem Directs.shown_of_message? (h : Directs (CPreprocessor.lexemes u) lead gap after name)
    (hname : name = "error".toList ∨ name = "warning".toList)
    (hmessage : message? (u.takeWhile (· ≠ '\n')) = some rest) : Shown lead gap after := by
  obtain ⟨sp₁, sp₂, word, hshape⟩ := message?_eq_some_iff.mp hmessage
  obtain ⟨hlead, hgap, hword⟩ := h.of_shape hshape
  refine ⟨hlead, hgap, stop_takeWhile_iff.mp ?_⟩
  have hstop := dropWhile_append_of_stop (List.forall_mem_nil _) (head?_word hname
    ((after.flatMap Lexeme.text).takeWhile (· ≠ '\n')))
  rw [takeWhile_name hname, ← List.nil_append (name ++ _), hstop] at hword
  have hsame : (after.flatMap Lexeme.text).takeWhile (· ≠ '\n') = rest := by
    rcases hname with rfl | rfl <;> rcases hshape.word with rfl | rfl
    · exact List.append_cancel_left hword
    · exact absurd (List.cons.inj hword).1 (by decide)
    · exact absurd (List.cons.inj hword).1 (by decide)
    · exact List.append_cancel_left hword
  rw [hsame]
  exact hshape.stop

open MessageLine in
/-- The text of an `#if` never looks like a directive for a message. -/
theorem Directs.message?_eq_none (h : Directs (CPreprocessor.lexemes u) lead gap after "if".toList) :
    message? (u.takeWhile (· ≠ '\n')) = none := by
  refine Option.eq_none_iff_forall_ne_some.mpr fun rest hmessage => ?_
  obtain ⟨sp₁, sp₂, word, hshape⟩ := message?_eq_some_iff.mp hmessage
  obtain ⟨-, -, hword⟩ := h.of_shape hshape
  rw [show "if".toList ++ after.flatMap Lexeme.text = 'i' :: 'f' :: after.flatMap Lexeme.text from rfl,
    List.takeWhile_cons_of_pos (by decide), List.dropWhile_cons_of_neg (by decide)] at hword
  rcases hshape.word with rfl | rfl
  · exact absurd (List.cons.inj hword).1 (by decide)
  · exact absurd (List.cons.inj hword).1 (by decide)

/-! ### The other way round -/

theorem lexemes_blank {blank : List Char} (hblank : ∀ c ∈ blank, isBlank c = true) {w : List Char}
    (hw : ∀ d ∈ w.head?, isBlank d = false) :
    ∃ lead, CPreprocessor.lexemes (blank ++ w) = lead ++ CPreprocessor.lexemes w ∧
      ∀ x ∈ lead, x.IsSpacing := by
  cases blank with
  | nil => exact ⟨[], rfl, List.forall_mem_nil _⟩
  | cons c blank =>
    obtain ⟨hc, hblank⟩ := List.forall_mem_cons.mp hblank
    refine ⟨[.token .whitespace (c :: blank)], ?_, List.forall_mem_singleton.mpr ⟨_, .inl rfl⟩⟩
    have hspan := spanLength_append_of_stop (spanLength_eq_length_iff.mpr hblank) hw
    rw [List.cons_append, CPreprocessor.lexemes, first_blank hc, hspan]
    simp only
    rw [List.take_left, List.drop_left]
    rfl

theorem lexemes_hash {w : List Char} (hw : ∀ d ∈ w.head?, d ≠ '#') :
    CPreprocessor.lexemes ('#' :: w) = .token .punctuator ['#'] :: CPreprocessor.lexemes w := by
  have hlong : ∀ p ∈ punctuators, 1 < p.length → p.head? = some '#' → p = ['#', '#'] := by decide
  have hstops : Stops .punctuator ['#'] w := by
    refine ⟨fun h => absurd h (by decide), fun h => absurd h (by decide), fun p hp hlength hpre => ?_⟩
    obtain ⟨more, hmore⟩ := hpre
    cases p with
    | nil => exact absurd hlength (by decide)
    | cons c p =>
      obtain ⟨rfl, hrest⟩ := List.cons.inj hmore
      have hp := hlong _ hp hlength rfl
      cases hp
      obtain rfl : '#' :: more = w := hrest
      exact hw '#' rfl rfl
  have hhash : first '#' [] = .ok (.punctuator, 0) := rfl
  have hfirst : first '#' w = .ok (.punctuator, 0) := first_append_of_stops hhash rfl hstops
  rw [CPreprocessor.lexemes, hfirst]
  rfl

theorem lexemes_word {w : List Char} (hword : word = "error".toList ∨ word = "warning".toList)
    (hw : ∀ d ∈ w.head?, isNameChar d = false) :
    CPreprocessor.lexemes (word ++ w) = .token .identifier word :: CPreprocessor.lexemes w := by
  obtain ⟨c, cs, rfl, hfirst, hprefix⟩ : ∃ c cs, word = c :: cs ∧
      first c cs = .ok (.identifier, cs.length) ∧ c :: cs ∉ encodingPrefixes := by
    rcases hword with rfl | rfl
    · exact ⟨'e', "rror".toList, rfl, rfl, by decide⟩
    · exact ⟨'w', "arning".toList, rfl, rfl, by decide⟩
  have hstops : Stops .identifier (c :: cs) w := ⟨hw, fun hmem => absurd hmem hprefix⟩
  rw [List.cons_append, CPreprocessor.lexemes, first_append_of_stops hfirst rfl hstops]
  simp only
  rw [List.take_left, List.drop_left]

theorem toNat_lt_of_isAlphanum {c : Char} (h : c.isAlphanum = true) : c.toNat < 128 := by
  simp only [Char.isAlphanum, Char.isAlpha, Char.isUpper, Char.isLower, Char.isDigit, ge_iff_le,
    Bool.or_eq_true, Bool.and_eq_true, decide_eq_true_eq, UInt32.le_iff_toNat_le] at h
  have hbound : ∀ d : Char, d.toNat < 128 → c.val.toNat ≤ d.val.toNat → c.toNat < 128 :=
    fun d hd hle => Nat.lt_of_le_of_lt hle hd
  rcases h with (h | h) | h
  · exact hbound 'Z' (by decide) h.2
  · exact hbound 'z' (by decide) h.2
  · exact hbound '9' (by decide) h.2

/-- The characters of names are word characters, but for the dollar sign. -/
theorem isWordChar_of_isNameChar {c : Char} (h : isNameChar c = true) (hc : c ≠ '$') :
    Text.isWordChar c = true := by
  simp only [isNameChar, isNameStart, Bool.or_eq_true, beq_iff_eq] at h
  have halphanum : c.isAlphanum = true ∨ c = '_' := by
    rw [Char.isAlphanum, Bool.or_eq_true]
    rcases h with ((h | h) | h) | h
    · exact .inl (.inl h)
    · exact .inr h
    · exact absurd h hc
    · exact .inl (.inr h)
  rcases halphanum with h | rfl
  · rw [Text.isWordChar, if_pos (toNat_lt_of_isAlphanum h), h, Bool.true_or]
  · decide

/-- A text that looks like a directive is one, if the spaces in it are blanks and the name is not
followed by a dollar sign. -/
theorem directs_of_shape (h : MessageLine.Shape (u.takeWhile (· ≠ '\n')) sp₁ sp₂ word rest)
    (hblank₁ : ∀ c ∈ sp₁, isBlank c = true) (hblank₂ : ∀ c ∈ sp₂, isBlank c = true)
    (hdollar : rest.head? ≠ some '$') :
    ∃ lead gap after, Directs (CPreprocessor.lexemes u) lead gap after word := by
  obtain ⟨tail, htail, hu⟩ : ∃ tail, (∀ d ∈ tail.head?, d = '\n') ∧
      u = sp₁ ++ '#' :: (sp₂ ++ (word ++ (rest ++ tail))) := by
    refine ⟨u.dropWhile (· ≠ '\n'), fun d hd => by simpa using head?_dropWhile_eq_false hd, ?_⟩
    conv_lhs => rw [← List.takeWhile_append_dropWhile (p := (· ≠ '\n')) (l := u), h.text]
    simp
  have hstop : ∀ d ∈ (rest ++ tail).head?, isNameChar d = false := by
    intro d hd
    cases rest with
    | nil =>
      obtain rfl := htail d hd
      decide
    | cons e rest =>
      obtain rfl : e = d := Option.some.inj hd
      refine Bool.eq_false_iff.mpr fun hname => ?_
      have hword := isWordChar_of_isNameChar hname fun he => hdollar (congrArg some he)
      rw [h.stop e rfl] at hword
      cases hword
  have hletter : ∀ d ∈ (word ++ (rest ++ tail)).head?, isBlank d = false ∧ d ≠ '#' := by
    rcases h.word with rfl | rfl
    · rintro d ⟨⟩
      decide
    · rintro d ⟨⟩
      decide
  have hhash : ∀ d ∈ (sp₂ ++ (word ++ (rest ++ tail))).head?, d ≠ '#' := by
    intro d hd
    cases sp₂ with
    | nil => exact (hletter d hd).2
    | cons e sp₂ =>
      obtain rfl : e = d := Option.some.inj hd
      rintro rfl
      cases hblank₂ '#' List.mem_cons_self
  obtain ⟨lead, hlead, hspacing₁⟩ := lexemes_blank hblank₁
    (w := '#' :: (sp₂ ++ (word ++ (rest ++ tail)))) (by rintro d ⟨⟩; decide)
  obtain ⟨gap, hgap, hspacing₂⟩ := lexemes_blank hblank₂ fun d hd => (hletter d hd).1
  refine ⟨lead, gap, CPreprocessor.lexemes (rest ++ tail), ?_, hspacing₁, hspacing₂⟩
  rw [hu, hlead, lexemes_hash hhash, hgap, lexemes_word h.word hstop]

end Lexeme

end CPreprocessor
