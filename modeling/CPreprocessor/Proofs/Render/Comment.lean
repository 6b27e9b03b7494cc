import CPreprocessor.Proofs.Source.Seam
import CPreprocessor.Proofs.Source.Splice
import CPreprocessor.Render

/-!
# Printed comments

No blank is printed around a comment, neither to keep it apart from a `/` before it nor to end the
line after it. A comment that stands where it is still read as one says no more than a blank in its
place (`Token.Stands.content_eq`).
-/

namespace CPreprocessor

open Lexeme

variable {before after : List Token} {c l : Token} {u w : List Char}

/-! ## Layout is printed as it is -/

namespace Token

theorem kind_of_layout (h : l.isLayout = true) :
    l.kind = .whitespace ∨ l.kind = .comment ∨ l.kind = .newline := by
  rw [isLayout] at h
  cases hkind : l.kind with
  | whitespace => exact .inl rfl
  | comment => exact .inr (.inl rfl)
  | newline => exact .inr (.inr rfl)
  | _ =>
    rw [hkind] at h
    cases h

theorem isPrinted_of_layout (h : l.isLayout = true) : l.isPrinted = true := by
  rw [isPrinted]
  rcases kind_of_layout h with hkind | hkind | hkind <;> rw [hkind] <;> rfl

theorem needsSeparator_of_layout_left (h : l.isLayout = true) (r : Token) :
    l.needsSeparator r = false := by
  unfold needsSeparator
  split
  · rfl
  · rfl
  · rcases kind_of_layout h with hkind | hkind | hkind <;> rw [hkind]

theorem needsSeparator_of_layout_right (h : c.isLayout = true) (l : Token) :
    l.needsSeparator c = false := by
  unfold needsSeparator
  split
  · rfl
  · rfl
  · rcases kind_of_layout h with hkind | hkind | hkind <;> rw [hkind] <;> cases l.kind <;> rfl

end Token

theorem renderAfter_of_layout (h : l.isLayout = true) (ts : List Token) :
    renderAfter l ts = renderPrinted ts := by
  cases ts with
  | nil => rfl
  | cons t ts =>
    rw [renderAfter, l.needsSeparator_of_layout_left h, if_neg Bool.false_ne_true, renderPrinted]

theorem renderAfter_append_layout (h : c.isLayout = true) (l : Token) (before after : List Token) :
    renderAfter l (before ++ c :: after) =
      renderAfter l before ++ (c.text.toList ++ renderPrinted after) := by
  induction before generalizing l with
  | nil =>
    simp only [renderAfter, List.nil_append, Token.needsSeparator_of_layout_right h,
      Bool.false_eq_true, if_false, renderAfter_of_layout h]
  | cons t before ih => rw [List.cons_append, renderAfter, renderAfter, ih, List.append_assoc]

/-- Nothing is printed around layout. -/
theorem render_append_layout (h : c.isLayout = true) :
    (render (before ++ c :: after)).toList =
      (render before).toList ++ (c.text.toList ++ (render after).toList) := by
  simp only [render, String.toList_ofList, List.filter_append,
    List.filter_cons_of_pos (Token.isPrinted_of_layout h)]
  cases before.filter Token.isPrinted with
  | nil => simp only [List.nil_append, renderPrinted, renderAfter_of_layout h]
  | cons t ts =>
    rw [List.cons_append, renderPrinted, renderAfter_append_layout h, renderPrinted,
      List.append_assoc]

/-! ## A comment is read as nothing -/

/-- A text that reads as a comment is a line comment or a block comment. -/
theorem comment_cases (h : lexemes u = [.token .comment u]) :
    (∃ rest, u = '/' :: '/' :: rest ∧ ∀ d ∈ rest, d ≠ '\n') ∨
      ∃ rest, u = '/' :: '*' :: rest ∧ commentLength rest = .ok rest.length := by
  cases u with
  | nil =>
    rw [lexemes] at h
    cases h
  | cons c cs =>
    rw [lexemes] at h
    cases hfirst : first c cs with
    | error cause =>
      rw [hfirst] at h
      cases h
    | ok read =>
      obtain ⟨kind, n⟩ := read
      rw [hfirst] at h
      obtain ⟨hl, -⟩ := List.cons.inj h
      obtain ⟨rfl, htext⟩ := Lexeme.token.inj hl
      have htake := (List.cons.inj htext).2
      have hle : cs.length ≤ n := by
        have hlength := congrArg List.length htake
        rw [List.length_take] at hlength
        omega
      obtain ⟨-, hkind, -⟩ | ⟨-, -, hkind, -⟩ | ⟨rfl, -, d, rest, m, rfl, rfl, hform⟩ :=
        first_layout_cases hfirst rfl
      · cases hkind
      · cases hkind
      have hrest : rest.length ≤ m := Nat.le_of_succ_le_succ hle
      rcases hform with ⟨rfl, rfl⟩ | ⟨rfl, hm⟩
      · have hall := spanLength_eq_length_iff.mp (Nat.le_antisymm (spanLength_le _ rest) hrest)
        exact .inl ⟨rest, rfl, fun d hd => of_decide_eq_true (hall d hd)⟩
      · rw [Nat.le_antisymm (commentLength_le hm) hrest] at hm
        exact .inr ⟨rest, rfl, hm⟩

/-- A comment says nothing, if no more than blanks stand between a line comment and the line end. -/
theorem content_comment (h : lexemes u = [.token .comment u])
    (hline : ['/', '/'] <+: u → ∀ d ∈ (w.dropWhile isBlank).head?, d = '\n') :
    content (u ++ w) = content w := by
  obtain ⟨rest, rfl, hrest⟩ | ⟨rest, rfl, hlength⟩ := comment_cases h
  · have hend := hline ⟨rest, rfl⟩
    have hblank : ∀ d ∈ w.takeWhile isBlank, isBlank d = true :=
      List.all_eq_true.mp List.all_takeWhile
    rw [← List.takeWhile_append_dropWhile (p := isBlank) (l := w)]
    generalize w.takeWhile isBlank = space at hblank
    generalize w.dropWhile isBlank = after at hend
    have hall : ∀ d ∈ rest ++ space, decide (d ≠ '\n') = true := by
      intro d hd
      rcases List.mem_append.mp hd with hd | hd
      · exact decide_eq_true (hrest d hd)
      · refine decide_eq_true fun heq => ?_
        have hd := hblank d hd
        rw [heq] at hd
        cases hd
    have hspan := spanLength_append_of_stop (spanLength_eq_length_iff.mpr hall) (w := after)
      (fun d hd => by rw [hend d hd]; rfl)
    rw [content_layout fun d hd => .inl (hblank d hd), List.cons_append, List.cons_append,
      ← List.append_assoc, content_cons_layout (first_line _) rfl, List.drop_succ_cons, hspan,
      List.drop_left]
  · have hread := commentLength_append hlength w
    have hfirst : first '/' ('*' :: (rest ++ w)) = .ok (.comment, rest.length + 1) := by
      rw [first_block, hread]
      rfl
    rw [List.cons_append, List.cons_append, content_cons_layout hfirst rfl, List.drop_succ_cons,
      List.drop_left]

namespace Token

/-- Whether a comment between tokens is read as a comment and ends where its spelling does. Its `/`
begins a token, it is one comment by itself, it splices no line end, and no more than blanks come
between a line comment and its line end. -/
structure Stands (before : List Token) (c : Token) (after : List Token) : Prop where
  begins : Seam (despliced (render before).toList)
  whole : lexemes (despliced c.text.toList) = [.token .comment (despliced c.text.toList)]
  ends : ¬ GoesOn c.text.toList
  closed : ['/', '/'] <+: despliced c.text.toList →
    ∀ d ∈ ((despliced (render after).toList).dropWhile isBlank).head?, d = '\n'

instance (before : List Token) (c : Token) (after : List Token) :
    Decidable (c.Stands before after) :=
  have : Decidable (GoesOn c.text.toList) := inferInstanceAs (Decidable (_ ∨ _))
  decidable_of_iff
    (Seam (despliced (render before).toList) ∧
      lexemes (despliced c.text.toList) = [.token .comment (despliced c.text.toList)] ∧
      ¬ GoesOn c.text.toList ∧
      (['/', '/'] <+: despliced c.text.toList →
        ((despliced (render after).toList).dropWhile isBlank).head?.all (· = '\n') = true))
    ⟨fun ⟨begins, whole, ends, closed⟩ => ⟨begins, whole, ends, fun hline d hd =>
        of_decide_eq_true ((Option.all_eq_true ..).mp (closed hline) d hd)⟩,
      fun ⟨begins, whole, ends, closed⟩ => ⟨begins, whole, ends, fun hline =>
        (Option.all_eq_true ..).mpr fun d hd => decide_eq_true (closed hline d hd)⟩⟩

/-- A comment that stands between tokens says no more there than a blank. -/
theorem Stands.content_eq (h : c.Stands before after) (hc : c.kind = .comment)
    (location : Location) :
    content (despliced (render (before ++ c :: after)).toList) =
      content (despliced (render (before ++ .blank location :: after)).toList) := by
  have hlayout : c.isLayout = true := by
    rw [isLayout, hc]
    rfl
  obtain ⟨cs, hcs⟩ : ∃ cs, despliced c.text.toList = '/' :: cs := by
    obtain ⟨rest, hrest, -⟩ | ⟨rest, hrest, -⟩ := comment_cases h.whole
    · exact ⟨_, hrest⟩
    · exact ⟨_, hrest⟩
  have hhead : ∀ d ∈ (c.text.toList ++ (render after).toList).head?, d ≠ '\n' ∧ d ≠ '\r' := by
    cases htext : c.text.toList with
    | nil =>
      rw [htext, despliced] at hcs
      cases hcs
    | cons d ds =>
      rintro e ⟨⟩
      by_cases hd : d = '\\'
      · rw [hd]
        decide
      · rw [htext, despliced_cons hd] at hcs
        rw [(List.cons.inj hcs).1]
        decide
  have hafter := content_comment h.whole h.closed
  have hblank : ∀ d ∈ (' ' :: (render after).toList).head?, d ≠ '\n' ∧ d ≠ '\r' := by
    rintro d ⟨⟩
    decide
  rw [hcs, List.cons_append] at hafter
  rw [render_append_layout hlayout, render_append_layout rfl,
    despliced_append_of_head fun _ => hhead, despliced_append_of_not_goesOn h.ends, hcs,
    List.cons_append]
  have htext : (blank location).text.toList = [' '] := (by decide : " ".toList = [' '])
  rw [htext, List.singleton_append, despliced_append_of_head fun _ => hblank,
    despliced_cons (by decide)]
  exact content_seam h.begins (by rw [hafter, content_blank (by decide)])

end Token

end CPreprocessor
