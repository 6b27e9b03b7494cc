/-!
# Runs of characters

The longest run of elements with a property, where it is known what follows.
-/

namespace CPreprocessor

variable {α : Type} {p : α → Bool} {xs ys : List α}

theorem takeWhile_eq_nil_of_stop (hstop : ∀ a ∈ ys.head?, p a = false) : ys.takeWhile p = [] := by
  cases ys with
  | nil => rfl
  | cons a ys => exact List.takeWhile_cons_of_neg (by simp [hstop a rfl])

theorem takeWhile_append_of_stop (h : ∀ a ∈ xs, p a = true) (hstop : ∀ a ∈ ys.head?, p a = false) :
    (xs ++ ys).takeWhile p = xs := by
  rw [List.takeWhile_append_of_pos h, takeWhile_eq_nil_of_stop hstop, List.append_nil]

theorem dropWhile_append_of_stop (h : ∀ a ∈ xs, p a = true) (hstop : ∀ a ∈ ys.head?, p a = false) :
    (xs ++ ys).dropWhile p = ys := by
  rw [List.dropWhile_append_of_pos h]
  cases ys with
  | nil => rfl
  | cons a ys => exact List.dropWhile_cons_of_neg (by simp [hstop a rfl])

/-- A run within the first `n` elements, which it fills if something like it follows. -/
theorem takeWhile_take_append_of_stop {n : Nat} (le : xs.length ≤ n) (h : ∀ a ∈ xs, p a = true)
    (hstop : xs.length = n ∨ ∀ a ∈ ys.head?, p a = false) :
    ((xs ++ ys).take n).takeWhile p = xs := by
  rw [List.take_append, List.take_of_length_le le]
  refine takeWhile_append_of_stop h fun a ha => ?_
  rw [List.head?_take] at ha
  split at ha
  · cases ha
  · exact hstop.resolve_left (by omega) a ha

theorem head?_dropWhile_eq_false {a : α} (h : a ∈ (xs.dropWhile p).head?) : p a = false := by
  have := List.head?_dropWhile_not p xs
  simp_all

theorem drop_length_takeWhile (p : α → Bool) (xs : List α) :
    xs.drop (xs.takeWhile p).length = xs.dropWhile p := by
  have h : ((xs.takeWhile p) ++ xs.dropWhile p).drop (xs.takeWhile p).length = xs.dropWhile p :=
    List.drop_left
  rwa [List.takeWhile_append_dropWhile] at h

end CPreprocessor
