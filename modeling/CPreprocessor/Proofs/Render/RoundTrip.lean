import Mathlib
import CPreprocessor.Proofs.Render.Content
import CPreprocessor.Proofs.Source.Ending
import CPreprocessor.Proofs.Source.SideBySide

/-!
# Printing and reading back

Tokens that the lexer itself gives are read back from what is printed of them, in any order, as long
as there is no literal with an encoding, no comment and no backslash among them
(`Source.exists_tokens_render`).
-/

namespace CPreprocessor

open Lexeme Token

variable {t : Token} {ts : List Token}

/-! ## Tokens that a lexer gives -/

namespace Token

/-- Whether the lexer gives this very token for its spelling. -/
def ReadsAlone (t : Token) : Prop :=
  ∃ read, Source.tokens { text := t.text } = .ok [read] ∧ read.form = t.form

theorem ReadsAlone.lexemes_eq (h : t.ReadsAlone) (hlayout : t.isLayout = false) :
    despliced t.text.toList = t.text.toList ∧ t.Alone := by
  obtain ⟨read, hread, hform⟩ := h
  have hkind : read.kind = t.kind := congrArg Prod.fst hform
  have htext : read.text = t.text := congrArg Prod.snd hform
  have hsaid : content (despliced t.text.toList) = some [(t.kind, t.text)] := by
    refine Source.exists_tokens_iff.mp ⟨[read], hread, ?_⟩
    have hlayout : read.isLayout = false := by
      rw [isLayout, hkind]
      exact hlayout
    rw [forms_cons, hlayout, if_neg Bool.false_ne_true, hform]
    rfl
  have hone : (lexemes (despliced t.text.toList)).length = 1 :=
    (Source.length_scan { text := t.text }).symm.trans (length_of_mapM_eq_ok hread).symm
  obtain ⟨l, hl⟩ := List.length_eq_one_iff.mp hone
  have hflat := flatMap_text_lexemes (despliced t.text.toList)
  rw [content, hl] at hsaid
  rw [hl] at hflat
  cases l with
  | fault cause skipped => cases hsaid
  | token kind text =>
    have hsame : kind = t.kind ∧ text = t.text.toList := by
      rw [contents, contents, Option.map_some, Option.some.injEq] at hsaid
      split at hsaid
      · cases hsaid
      · obtain ⟨hkind, htext⟩ := Prod.mk.inj (List.cons.inj hsaid).1
        exact ⟨hkind, by rw [← htext, String.toList_ofList]⟩
    obtain ⟨rfl, rfl⟩ := hsame
    have hself : despliced t.text.toList = t.text.toList := by
      rw [← hflat]
      exact List.append_nil _
    rw [hself] at hl
    exact ⟨hself, hl⟩

/-- A spelling that reads as one token is a source of that token, as there is no newline in it that
could be spliced away. -/
theorem Alone.readsAlone (h : t.Alone) (hlayout : t.isLayout = false) : t.ReadsAlone := by
  obtain ⟨c, cs, hu, hfirst⟩ := h.first_eq hlayout
  have hline : '\n' ∉ t.text.toList := by
    rw [hu]
    exact not_mem_newline_of_first hfirst hlayout
  have hread : SideBySide [t] := by
    rw [SideBySide, spell_singleton]
    exact h
  obtain ⟨read, htokens, hforms, -⟩ :=
    Source.exists_tokens_of_sideBySide (s := { text := t.text }) hread
      (by rw [spell_singleton, despliced_of_not_mem_newline hline])
  obtain ⟨u, us, rfl, hform, hus⟩ := List.map_eq_cons_iff.mp hforms
  obtain rfl := List.map_eq_nil_iff.mp hus
  exact ⟨u, htokens, hform⟩

end Token

/-- Whether a spelling has no splice, nor makes one with what follows. -/
def Unspliced (u : List Char) : Prop := despliced u = u ∧ ¬ GoesOn u

theorem Unspliced.append {u w : List Char} (hu : Unspliced u) (hw : despliced w = w) :
    despliced (u ++ w) = u ++ w := by
  rw [despliced_append_of_not_goesOn hu.2, hu.1, hw]

theorem despliced_renderAfter (hts : ∀ t ∈ ts, Unspliced t.text.toList) (previous : Token) :
    despliced (renderAfter previous ts) = renderAfter previous ts := by
  induction ts generalizing previous with
  | nil => rfl
  | cons t ts ih =>
    obtain ⟨ht, hts⟩ := List.forall_mem_cons.mp hts
    have hblank : Unspliced [' '] := ⟨rfl, fun hgoes => absurd hgoes.mem (by decide)⟩
    rw [renderAfter]
    split
    · exact hblank.append (ht.append (ih hts t))
    · exact ht.append (ih hts t)

theorem despliced_renderPrinted (hts : ∀ t ∈ ts, Unspliced t.text.toList) :
    despliced (renderPrinted ts) = renderPrinted ts := by
  cases ts with
  | nil => rfl
  | cons t ts =>
    obtain ⟨ht, hts⟩ := List.forall_mem_cons.mp hts
    exact ht.append (despliced_renderAfter hts t)

theorem Token.ReadsAlone.unspliced (h : t.ReadsAlone) (hlayout : t.isLayout = false)
    (hbackslash : ¬ (t.kind = .other ∧ t.text = "\\")) : Unspliced t.text.toList := by
  obtain ⟨hself, halone⟩ := h.lexemes_eq hlayout
  obtain ⟨c, cs, hu, hfirst⟩ := halone.first_eq hlayout
  refine ⟨hself, ?_⟩
  rw [hu]
  refine not_goesOn_of_first hfirst hlayout fun hkind hc => hbackslash ⟨hkind, ?_⟩
  exact String.toList_inj.mp (hu.trans hc)

theorem Token.IsSpace.unspliced (h : t.IsSpace) : Unspliced t.text.toList := by
  have hmem : '\\' ∉ t.text.toList := by
    rcases h with ⟨-, htext⟩ | ⟨-, -, hblank⟩
    · rw [htext]
      decide
    · exact fun hmem => absurd (hblank _ hmem) (by decide)
  exact ⟨despliced_of_not_mem hmem, fun hgoes => hmem hgoes.mem⟩

/-- Tokens that the lexer gives for their spellings are read back from what is printed of them, if no
literal has an encoding, no token is the backslash, and white space is a line end or a run of
blanks. -/
theorem Source.exists_tokens_render (ts : List Token)
    (halone : ∀ t ∈ ts, t.isPrinted = true → t.isLayout = false → t.ReadsAlone)
    (hquote : ∀ t ∈ ts, t.kind = .string ∨ t.kind = .character →
      ∃ c ∈ t.text.toList.head?, IsQuote c)
    (hbackslash : ∀ t ∈ ts, ¬ (t.kind = .other ∧ t.text = "\\"))
    (hspace : ∀ t ∈ ts, t.isLayout = true → t.IsSpace) (file : String) :
    ∃ read, ({ text := render ts, file } : Source).tokens = .ok read ∧
      forms read = forms (ts.filter Token.isPrinted) := by
  have hprinted : ∀ t ∈ ts.filter Token.isPrinted,
      t.isLayout = true ∧ t.IsSpace ∨ t.isLayout = false ∧ t.ReadsAlone := by
    intro t ht
    obtain ⟨ht, hprinted⟩ := List.mem_filter.mp ht
    cases hlayout : t.isLayout with
    | true => exact .inl ⟨rfl, hspace t ht hlayout⟩
    | false => exact .inr ⟨rfl, halone t ht hprinted hlayout⟩
  have hspelled : ∀ t ∈ ts.filter Token.isPrinted, t.Spelled := by
    intro t ht
    rcases hprinted t ht with ⟨-, h⟩ | ⟨hlayout, h⟩
    · exact .space h
    · exact .alone (h.lexemes_eq hlayout).2 hlayout
  have hunspliced : ∀ t ∈ ts.filter Token.isPrinted, Unspliced t.text.toList := by
    intro t ht
    rcases hprinted t ht with ⟨-, h⟩ | ⟨hlayout, h⟩
    · exact h.unspliced
    · exact h.unspliced hlayout (hbackslash t (List.mem_of_mem_filter ht))
  refine Source.exists_tokens_iff.mpr ?_
  rw [render, String.toList_ofList, despliced_renderPrinted hunspliced,
    content_renderPrinted_iff hspelled]
  refine .of_forall (fun t ht hlayout => ?_) fun r hr l hglue => ?_
  · rcases hprinted t ht with ⟨h, -⟩ | ⟨-, h⟩
    · rw [hlayout] at h
      cases h
    · exact (h.lexemes_eq hlayout).2
  · obtain ⟨-, hliteral, ⟨c, hc, hname⟩, -⟩ := hglue
    obtain ⟨d, hd, hd'⟩ := hquote r (List.mem_of_mem_filter hr) hliteral
    obtain rfl := Option.mem_unique hc hd
    have hnot := hd'.not_isNameChar
    rw [isNameChar, hname] at hnot
    cases hnot

/-- Three points, a number that a sign would go on, and a literal. -/
def pointTokens : List Token :=
  let at_ (kind : Kind) (text : String) : Token := { kind, text, location := ⟨"<input>", 1, 1⟩ }
  [at_ .punctuator ".", at_ .punctuator ".", at_ .placemarker "", at_ .punctuator ".",
    at_ .number "1e", at_ .punctuator "+", at_ .whitespace " ", at_ .string "\"s\"",
    at_ .newline "\n", at_ .endOfInput ""]

/-- Points are read back one by one. -/
theorem Source.exists_tokens_points :
    ∃ read, ({ text := render pointTokens } : Source).tokens = .ok read ∧
      forms read = [(.punctuator, "."), (.punctuator, "."), (.punctuator, "."), (.number, "1e"),
        (.punctuator, "+"), (.string, "\"s\"")] := by
  have hpoint : ∃ read, Source.tokens { text := "." } = .ok [read] ∧
      read.form = (.punctuator, ".") := ⟨_, by cbv, rfl⟩
  have hnumber : ∃ read, Source.tokens { text := "1e" } = .ok [read] ∧
      read.form = (.number, "1e") := ⟨_, by cbv, rfl⟩
  have hplus : ∃ read, Source.tokens { text := "+" } = .ok [read] ∧
      read.form = (.punctuator, "+") := ⟨_, by cbv, rfl⟩
  have hstring : ∃ read, Source.tokens { text := "\"s\"" } = .ok [read] ∧
      read.form = (.string, "\"s\"") := ⟨_, by cbv, rfl⟩
  refine Source.exists_tokens_render pointTokens (fun t ht hprinted hlayout => ?_)
    (fun t ht hliteral => ?_) (by decide) (fun t ht hlayout => ?_) "<input>"
  · simp only [pointTokens, List.mem_cons, List.not_mem_nil, or_false] at ht
    rcases ht with rfl | rfl | rfl | rfl | rfl | rfl | rfl | rfl | rfl | rfl
    · exact hpoint
    · exact hpoint
    · cases hprinted
    · exact hpoint
    · exact hnumber
    · exact hplus
    · cases hlayout
    · exact hstring
    · cases hlayout
    · cases hprinted
  · simp only [pointTokens, List.mem_cons, List.not_mem_nil, or_false] at ht
    rcases ht with rfl | rfl | rfl | rfl | rfl | rfl | rfl | rfl | rfl | rfl
    case inr.inr.inr.inr.inr.inr.inr.inl => exact ⟨'"', rfl, .inl rfl⟩
    all_goals exact absurd hliteral (by decide)
  · simp only [pointTokens, List.mem_cons, List.not_mem_nil, or_false] at ht
    rcases ht with rfl | rfl | rfl | rfl | rfl | rfl | rfl | rfl | rfl | rfl
    case inr.inr.inr.inr.inr.inr.inl =>
      exact .inr ⟨rfl, by decide, List.all_eq_true.mp (by decide : " ".toList.all isBlank = true)⟩
    case inr.inr.inr.inr.inr.inr.inr.inr.inl => exact .inl ⟨rfl, rfl⟩
    all_goals cases hlayout

end CPreprocessor
