import CPreprocessor.Proofs.Source.LastLine

/-!
# Texts without splices

A text has no splice if its pieces have none and none of them ends where a newline would make one
(`despliced_append_of_not_goesOn`). A splice takes a backslash with it, so a text that keeps its
backslashes has none (`despliced_eq_self_of_count_le`).
-/

namespace CPreprocessor

variable {c : Char} {u v : List Char}

theorem GoesOn.getLast? (h : GoesOn u) : u.getLast? = some '\\' ∨ u.getLast? = some '\r' := by
  rcases h with ⟨u, rfl⟩ | ⟨u, rfl⟩
  · exact .inl List.getLast?_concat
  · refine .inr ?_
    rw [show ['\\', '\r'] = ['\\'] ++ ['\r'] from rfl, ← List.append_assoc]
    exact List.getLast?_concat

theorem GoesOn.mem (h : GoesOn u) : '\\' ∈ u := by
  rcases h with h | h
  · exact h.subset List.mem_cons_self
  · exact h.subset List.mem_cons_self

theorem despliced_append_of_head (h : GoesOn u → ∀ d ∈ v.head?, d ≠ '\n' ∧ d ≠ '\r') :
    despliced (u ++ v) = despliced u ++ despliced v := by
  fun_induction despliced u with
  | case1 => rfl
  | case2 cs ih => exact ih fun hgoes => h (hgoes.append ['\\', '\n'])
  | case3 cs ih => exact ih fun hgoes => h (hgoes.append ['\\', '\r', '\n'])
  | case4 c cs hsplice hreturn ih =>
    rw [List.cons_append, despliced, ih fun hgoes => h (hgoes.append [c]), List.cons_append]
    · rintro us rfl hus
      cases cs with
      | nil =>
        obtain rfl : v = '\n' :: us := hus
        exact (h (.inl (List.suffix_refl _)) '\n' rfl).1 rfl
      | cons d cs =>
        obtain ⟨rfl, -⟩ := List.cons.inj hus
        exact hsplice cs rfl rfl
    · rintro us rfl hus
      cases cs with
      | nil =>
        obtain rfl : v = '\r' :: '\n' :: us := hus
        exact (h (.inl (List.suffix_refl _)) '\r' rfl).2 rfl
      | cons d cs =>
        obtain ⟨rfl, hafter⟩ := List.cons.inj hus
        cases cs with
        | nil =>
          obtain rfl : v = '\n' :: us := hafter
          exact (h (.inr (List.suffix_refl _)) '\n' rfl).1 rfl
        | cons e cs =>
          obtain ⟨rfl, -⟩ := List.cons.inj hafter
          exact hreturn cs rfl rfl

theorem despliced_append_of_not_goesOn (h : ¬ GoesOn u) (v : List Char) :
    despliced (u ++ v) = despliced u ++ despliced v :=
  despliced_append_of_head fun hgoes => absurd hgoes h

theorem despliced_cons (hc : c ≠ '\\') (u : List Char) : despliced (c :: u) = c :: despliced u := by
  rw [despliced]
  · exact fun cs heq => absurd heq hc
  · exact fun cs heq => absurd heq hc

theorem despliced_of_not_mem_newline (h : '\n' ∉ u) : despliced u = u := by
  fun_induction despliced u with
  | case1 => rfl
  | case2 => exact absurd (by simp) h
  | case3 => exact absurd (by simp) h
  | case4 c cs hsplice hreturn ih => rw [ih (List.not_mem_of_not_mem_cons h)]

theorem despliced_of_not_mem (h : '\\' ∉ u) : despliced u = u := by
  fun_induction despliced u with
  | case1 => rfl
  | case2 => exact absurd List.mem_cons_self h
  | case3 => exact absurd List.mem_cons_self h
  | case4 c cs hsplice hreturn ih => rw [ih fun hmem => h (List.mem_cons_of_mem c hmem)]

theorem count_despliced_le (u : List Char) : (despliced u).count '\\' ≤ u.count '\\' := by
  fun_induction despliced u with
  | case1 => exact Nat.le_refl _
  | case2 cs ih =>
    rw [List.count_cons_self]
    exact Nat.le_succ_of_le (Nat.le_trans ih (List.count_le_count_cons))
  | case3 cs ih =>
    rw [List.count_cons_self]
    exact Nat.le_succ_of_le (Nat.le_trans ih
      (Nat.le_trans List.count_le_count_cons List.count_le_count_cons))
  | case4 c cs hsplice hreturn ih =>
    rw [List.count_cons, List.count_cons]
    exact Nat.add_le_add_right ih _

/-- A splice takes a backslash with it. -/
theorem despliced_eq_self_of_count_le (h : u.count '\\' ≤ (despliced u).count '\\') :
    despliced u = u := by
  fun_induction despliced u with
  | case1 => rfl
  | case2 cs ih =>
    have hle := count_despliced_le cs
    rw [List.count_cons_self] at h
    have hmore : cs.count '\\' ≤ ('\n' :: cs).count '\\' := List.count_le_count_cons
    omega
  | case3 cs ih =>
    have hle := count_despliced_le cs
    rw [List.count_cons_self] at h
    have hmore : cs.count '\\' ≤ ('\r' :: '\n' :: cs).count '\\' :=
      Nat.le_trans List.count_le_count_cons List.count_le_count_cons
    omega
  | case4 c cs hsplice hreturn ih =>
    rw [List.count_cons, List.count_cons] at h
    rw [ih (Nat.le_of_add_le_add_right h)]

end CPreprocessor
