import Mathlib
import CPreprocessor.Proofs.Source.Append

/-!
# Where tokens stand

Each token of a source stands at a place of its own (`Source.nodup_location_scan`), so a place tells
the logical line that a token is on.
-/

namespace CPreprocessor

/-- Whether a place comes before another one in a text. -/
def Place.Before (p q : Place) : Prop := p.line < q.line ∨ p.line = q.line ∧ p.column < q.column

namespace Place

theorem Before.trans {p q r : Place} (hpq : p.Before q) (hqr : q.Before r) : p.Before r := by
  unfold Before at hpq hqr ⊢
  omega

theorem before_nextLine (p : Place) : p.Before p.nextLine := .inl (Int.lt_add_one_iff.mpr (Int.le_refl _))

theorem before_after (p : Place) (c : Char) : p.Before (p.after c) := by
  rw [after]
  split
  · exact p.before_nextLine
  · exact .inr ⟨rfl, Int.lt_add_one_iff.mpr (Int.le_refl _)⟩

end Place

/-- The places of a text come one after the other, from where it begins. -/
theorem pairwise_places (p : Place) (u : List Char) :
    (∀ q ∈ places p u, q = p ∨ p.Before q) ∧ (places p u).Pairwise Place.Before := by
  have hfrom : ∀ {p next : Place} {qs : List Place}, p.Before next →
      (∀ q ∈ qs, q = next ∨ next.Before q) → ∀ q ∈ qs, p.Before q := by
    intro p next qs hnext hqs q hq
    rcases hqs q hq with rfl | hafter
    · exact hnext
    · exact hnext.trans hafter
  fun_induction places p u with
  | case1 p => exact ⟨List.forall_mem_singleton.mpr (.inl rfl), List.pairwise_singleton _ _⟩
  | case2 p cs ih | case3 p cs ih =>
    exact ⟨fun q hq => .inr (hfrom p.before_nextLine ih.1 q hq), ih.2⟩
  | case4 p c cs hsplice hreturn ih =>
    have hafter := hfrom (p.before_after c) ih.1
    exact ⟨List.forall_mem_cons.mpr ⟨.inl rfl, fun q hq => .inr (hafter q hq)⟩,
      List.pairwise_cons.mpr ⟨hafter, ih.2⟩⟩

namespace Source

variable {s : Source}

/-- Tokens are put to places in their order, and none twice to the same. -/
theorem sublist_settle (s : Source) {ls : List Lexeme} (hls : ∀ l ∈ ls, l.text ≠ [])
    (ps : List Place) :
    ((s.settle ls ps).map fun t => t.token.location).Sublist (ps.map s.locate) := by
  induction ls generalizing ps with
  | nil => exact List.nil_sublist _
  | cons l ls ih =>
    cases ps with
    | nil => exact List.nil_sublist _
    | cons p ps =>
      obtain ⟨hl, hls⟩ := List.forall_mem_cons.mp hls
      obtain ⟨c, cs, hcs⟩ := List.exists_cons_of_ne_nil hl
      rw [settle, List.map_cons, List.map_cons, location_token, hcs, List.length_cons,
        List.drop_succ_cons]
      exact ((ih hls _).trans ((List.drop_sublist _ _).map _)).cons_cons _

/-- No two tokens of a source stand at the same place. -/
theorem nodup_location_scan (s : Source) : (s.scan.map fun t => t.token.location).Nodup := by
  refine (s.sublist_settle (fun l hl => text_ne_nil hl) s.places).nodup ?_
  rw [List.Nodup, List.pairwise_map]
  refine (pairwise_places ⟨s.firstLine, 1⟩ s.text.toList).2.imp fun {p q} hbefore heq => ?_
  have hline : p.line = q.line := congrArg Location.line heq
  have hcolumn : p.column = q.column := congrArg Location.column heq
  unfold Place.Before at hbefore
  omega

theorem flatten_linesFrom (line ts : List Scanned) :
    (linesFrom line ts).flatten = line.reverse ++ ts := by
  induction ts generalizing line with
  | nil =>
    rw [linesFrom]
    split
    · rename_i hnil
      rw [List.isEmpty_iff.mp hnil]
      rfl
    · rw [List.flatten_singleton, List.append_nil]
  | cons t ts ih =>
    rw [linesFrom]
    split
    · rw [List.flatten_cons, ih, List.reverse_cons, List.append_assoc, List.reverse_nil]
      rfl
    · rw [ih, List.reverse_cons, List.append_assoc]
      rfl

/-- The logical lines of a source are made of all its tokens. -/
theorem flatten_logicalLines (s : Source) : s.logicalLines.flatten = s.scan := flatten_linesFrom [] _

theorem nodup_location_logicalLines (s : Source) :
    (s.logicalLines.flatMap fun line => line.map fun t => t.token.location).Nodup := by
  have h := s.nodup_location_scan
  rwa [← flatten_logicalLines, List.map_flatten, ← List.flatMap_def] at h

end Source

end CPreprocessor
