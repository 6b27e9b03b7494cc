import Mathlib
import CPreprocessor.Proofs.Render.Content
import CPreprocessor.Proofs.Source.Splice

/-!
# Splices in printed text

Printed text may hold splices: a backslash that is a token of its own, before a line end. A splice
takes away a backslash that some token has, so text with splices is not read back as the tokens it
was printed from (`content_despliced_renderPrinted_iff`).
-/

namespace CPreprocessor

open Lexeme Token

variable {t : Token} {ts : List Token} {u : List Char} {said : List (Kind × String)}

/-- How many backslashes some tokens have. -/
def backslashes (said : List (Kind × String)) : Nat :=
  (said.map fun form => form.2.toList.count '\\').sum

theorem backslashes_cons (form : Kind × String) (said : List (Kind × String)) :
    backslashes (form :: said) = form.2.toList.count '\\' + backslashes said := rfl

/-- The significant tokens of a text have no more backslashes than the text. -/
theorem backslashes_le_of_content (h : content u = some said) : backslashes said ≤ u.count '\\' := by
  have hlexemes : ∀ (ls : List Lexeme) (said : List (Kind × String)), contents ls = some said →
      backslashes said ≤ (ls.flatMap Lexeme.text).count '\\' := by
    intro ls
    induction ls with
    | nil =>
      rintro said ⟨⟩
      exact Nat.zero_le _
    | cons l ls ih =>
      intro said h
      cases l with
      | fault cause skipped => cases h
      | token kind text =>
        obtain ⟨rest, hrest, rfl⟩ := Option.map_eq_some_iff.mp h
        have hle := ih rest hrest
        rw [List.flatMap_cons, List.count_append]
        split
        · exact Nat.le_trans hle (Nat.le_add_left _ _)
        · rw [backslashes_cons, String.toList_ofList]
          exact Nat.add_le_add_left hle _
  have hle := hlexemes (lexemes u) said h
  rwa [flatMap_text_lexemes] at hle

theorem Token.IsSpace.count_backslash (h : t.IsSpace) : t.text.toList.count '\\' = 0 := by
  refine List.count_eq_zero_of_not_mem fun hmem => ?_
  rcases h with ⟨-, htext⟩ | ⟨-, -, hblank⟩
  · rw [htext] at hmem
    exact absurd hmem (by decide)
  · exact absurd (hblank _ hmem) (by decide)

theorem Token.Spelled.isSpace (h : t.Spelled) (hlayout : t.isLayout = true) : t.IsSpace := by
  have hnot : t.isLayout = true ∧ t.isLayout = false → t.IsSpace := by
    rintro ⟨h, h'⟩
    rw [h] at h'
    cases h'
  cases h with
  | space h => exact h
  | alone _ h => exact hnot ⟨hlayout, h⟩
  | string hkind _ => exact hnot ⟨hlayout, by rw [isLayout, hkind]; rfl⟩
  | point hkind _ => exact hnot ⟨hlayout, by rw [isLayout, hkind]; rfl⟩

theorem Token.Spelled.backslashes_cons (h : t.Spelled) (ts : List Token) :
    t.text.toList.count '\\' + backslashes (forms ts) = backslashes (forms (t :: ts)) := by
  rw [forms_cons]
  split
  · rename_i hlayout
    rw [(h.isSpace hlayout).count_backslash, Nat.zero_add]
  · rfl

theorem count_renderAfter (hts : ∀ t ∈ ts, t.Spelled) (previous : Token) :
    (renderAfter previous ts).count '\\' = backslashes (forms ts) := by
  induction ts generalizing previous with
  | nil => rfl
  | cons t ts ih =>
    obtain ⟨ht, hts⟩ := List.forall_mem_cons.mp hts
    have htoken : (if previous.needsSeparator t then ' ' :: t.text.toList else t.text.toList).count
        '\\' = t.text.toList.count '\\' := by
      split
      · exact List.count_cons_of_ne (by decide)
      · rfl
    rw [renderAfter, List.count_append, htoken, ih hts t, ht.backslashes_cons]

/-- Neither white space nor what separates tokens has a backslash. -/
theorem count_renderPrinted (hts : ∀ t ∈ ts, t.Spelled) :
    (renderPrinted ts).count '\\' = backslashes (forms ts) := by
  cases ts with
  | nil => rfl
  | cons t ts =>
    obtain ⟨ht, hts⟩ := List.forall_mem_cons.mp hts
    rw [renderPrinted, List.count_append, count_renderAfter hts t, ht.backslashes_cons]

/-- Printed text is read back as the tokens it was printed from if and only if it has no splices and
its tokens are legible. -/
theorem content_despliced_renderPrinted_iff (hts : ∀ t ∈ ts, t.Spelled) :
    content (despliced (renderPrinted ts)) = some (forms ts) ↔
      despliced (renderPrinted ts) = renderPrinted ts ∧ Legible ts := by
  refine ⟨fun h => ?_, fun ⟨hself, hlegible⟩ => ?_⟩
  · have hself : despliced (renderPrinted ts) = renderPrinted ts := by
      refine despliced_eq_self_of_count_le ?_
      rw [count_renderPrinted hts]
      exact backslashes_le_of_content h
    rw [hself] at h
    exact ⟨hself, (content_renderPrinted_iff hts).mp h⟩
  · rw [hself]
    exact (content_renderPrinted_iff hts).mpr hlegible

end CPreprocessor
