import CPreprocessor.Location
import CPreprocessor.Proofs.Source.Boundary

/-!
# Reading a text with its splices

A reader stands in a text as it is written. It looks ahead and goes on by one character at a time and
passes over the splices on its way, wherever they fall. What it reads is the text without the splices
(`Reader.peek_eq`, `Reader.advance_eq`): a loop over characters gives `Reader.take n`, the next `n`
of them, for the `n` that the text ahead tells (`Reader.readWhile_eq`).
-/

namespace CPreprocessor

/-- A text after the splices at its start. -/
def bare : List Char → List Char
  | '\\' :: '\n' :: cs => bare cs
  | '\\' :: '\r' :: '\n' :: cs => bare cs
  | cs => cs

/-- What is left of a text, as written, and the place where that begins. -/
structure Reader where
  rest : List Char
  place : Place

namespace Reader

/-- The reader behind the splices at the start of a text that begins at `p`. -/
def past (p : Place) : List Char → Reader
  | '\\' :: '\n' :: cs => past p.nextLine cs
  | '\\' :: '\r' :: '\n' :: cs => past p.nextLine cs
  | cs => ⟨cs, p⟩

def skipSplices (r : Reader) : Reader := past r.place r.rest

/-- The text `n` characters further on. -/
def beyond : Nat → List Char → List Char
  | 0, cs => bare cs
  | n + 1, cs => beyond n (bare cs).tail

/-- The character `n` characters ahead. -/
def peek (r : Reader) (n : Nat) : Option Char := (beyond n r.rest).head?

/-- The next character, if there is one, and the reader behind it. -/
def advance (r : Reader) : List Char × Reader :=
  match r.skipSplices with
  | ⟨[], p⟩ => ([], ⟨[], p⟩)
  | ⟨c :: cs, p⟩ => ([c], ⟨cs, p.after c⟩)

/-- The text that is left, without its splices. -/
def ahead (r : Reader) : List Char := despliced r.rest

/-- The places of the characters that are left, and of the end. -/
def places (r : Reader) : List Place := CPreprocessor.places r.place r.rest

/-- The reader `n` characters further on. -/
def skip : Nat → Reader → Reader
  | 0, r => r
  | n + 1, r => skip n r.advance.2

/-- The next `n` characters and the reader behind them. -/
def take (n : Nat) (r : Reader) : List Char × Reader := (r.ahead.take n, r.skip n)

variable {r : Reader} {p : Char → Bool} {c : Char} {cs : List Char} {m n : Nat}

/-! ## Single characters -/

theorem rest_past (p : Place) (cs : List Char) : (past p cs).rest = bare cs := by
  fun_induction past p cs with
  | case1 p cs ih => exact ih
  | case2 p cs ih => exact ih
  | case3 p cs hsplice hreturn =>
    rw [bare]
    · exact hsplice
    · exact hreturn

theorem despliced_eq_bare (cs : List Char) :
    despliced cs = (bare cs).take 1 ++ despliced (bare cs).tail := by
  fun_induction bare cs with
  | case1 cs ih => exact ih
  | case2 cs ih => exact ih
  | case3 cs hsplice hreturn =>
    cases cs with
    | nil => rfl
    | cons c cs =>
      rw [despliced]
      · rfl
      · rintro us rfl rfl
        exact hsplice us rfl
      · rintro us rfl rfl
        exact hreturn us rfl

theorem places_eq_past (p : Place) (cs : List Char) :
    CPreprocessor.places p cs =
      match past p cs with
      | ⟨[], q⟩ => [q]
      | ⟨c :: cs, q⟩ => q :: CPreprocessor.places (q.after c) cs := by
  fun_induction past p cs with
  | case1 p cs ih => exact ih
  | case2 p cs ih => exact ih
  | case3 p cs hsplice hreturn =>
    cases cs with
    | nil => rfl
    | cons c cs =>
      rw [CPreprocessor.places]
      · rintro us rfl rfl
        exact hsplice us rfl
      · rintro us rfl rfl
        exact hreturn us rfl

theorem head?_beyond (n : Nat) (cs : List Char) : (beyond n cs).head? = (despliced cs)[n]? := by
  induction n generalizing cs with
  | zero =>
    rw [beyond, despliced_eq_bare cs]
    cases bare cs <;> rfl
  | succ n ih =>
    rw [beyond, ih, despliced_eq_bare cs]
    cases bare cs <;> rfl

theorem peek_eq (r : Reader) (n : Nat) : r.peek n = r.ahead[n]? := head?_beyond n r.rest

theorem peek_zero (h : r.ahead = c :: cs) : r.peek 0 = some c := by
  rw [peek_eq, h]
  rfl

theorem ahead_eq (r : Reader) :
    r.ahead = r.skipSplices.rest.take 1 ++ despliced r.skipSplices.rest.tail := by
  rw [ahead, despliced_eq_bare, skipSplices, rest_past]

theorem ahead_skipSplices (r : Reader) : r.skipSplices.ahead = r.ahead := by
  rw [ahead, ahead, skipSplices, rest_past]
  fun_induction bare r.rest with
  | case1 cs ih => exact ih
  | case2 cs ih => exact ih
  | case3 cs => rfl

theorem places_skipSplices (r : Reader) : r.skipSplices.places = r.places := by
  rw [places, places, skipSplices]
  fun_induction past r.place r.rest with
  | case1 p cs ih => exact ih
  | case2 p cs ih => exact ih
  | case3 p cs => rfl

theorem ahead_advance (r : Reader) : r.advance.2.ahead = r.ahead.drop 1 := by
  rw [ahead_eq r, advance]
  rcases r.skipSplices with ⟨_ | ⟨c, cs⟩, q⟩ <;> rfl

theorem fst_advance (r : Reader) : r.advance.1 = r.ahead.take 1 := by
  rw [ahead_eq r, advance]
  rcases r.skipSplices with ⟨_ | ⟨c, cs⟩, q⟩ <;> rfl

theorem advance_eq (r : Reader) : r.advance = r.take 1 := Prod.ext r.fst_advance rfl

theorem fst_advance_cons (h : r.ahead = c :: cs) : r.advance.1 = [c] := by rw [fst_advance, h]; rfl

theorem ahead_advance_cons (h : r.ahead = c :: cs) : r.advance.2.ahead = cs := by
  rw [ahead_advance, h]
  rfl

theorem places_eq (r : Reader) :
    r.places = r.skipSplices.place :: if r.ahead = [] then [] else r.advance.2.places := by
  rw [places, places_eq_past, ahead_eq, advance, skipSplices]
  rcases past r.place r.rest with ⟨_ | ⟨c, cs⟩, q⟩
  · rfl
  · rfl

theorem places_advance_end (h : r.ahead = []) : r.advance.2.places = r.places := by
  rw [ahead_eq, skipSplices] at h
  rw [places, places, places_eq_past r.place, advance, skipSplices]
  generalize past r.place r.rest = start at h ⊢
  rcases start with ⟨_ | ⟨c, cs⟩, q⟩
  · rfl
  · cases h

theorem bare_suffix (cs : List Char) : bare cs <:+ cs := by
  fun_induction bare cs with
  | case1 cs ih => exact ih.trans (List.suffix_append ['\\', '\n'] cs)
  | case2 cs ih => exact ih.trans (List.suffix_append ['\\', '\r', '\n'] cs)
  | case3 cs => exact List.suffix_refl cs

theorem skipSplices_suffix (r : Reader) : r.skipSplices.rest <:+ r.rest := by
  rw [skipSplices, rest_past]
  exact bare_suffix r.rest

theorem advance_suffix (r : Reader) : r.advance.2.rest <:+ r.rest := by
  have hbare := r.skipSplices_suffix
  rw [advance]
  generalize r.skipSplices = start at hbare
  rcases start with ⟨_ | ⟨c, cs⟩, q⟩
  · exact hbare
  · exact (List.suffix_cons c cs).trans hbare

/-- Going on makes what is left shorter. -/
theorem length_advance_lt (h : r.ahead ≠ []) : r.advance.2.rest.length < r.rest.length := by
  have hbare := r.skipSplices_suffix
  rw [ahead_eq] at h
  rw [advance]
  generalize r.skipSplices = start at h hbare
  rcases start with ⟨_ | ⟨c, cs⟩, q⟩
  · exact absurd rfl h
  · exact hbare.length_le

theorem peek_eq_none_iff : r.peek 0 = none ↔ r.ahead = [] := by
  rw [peek_eq, List.getElem?_eq_none_iff, Nat.le_zero, List.length_eq_zero_iff]

theorem ahead_ne_nil (h : r.peek 0 ≠ none) : r.ahead ≠ [] := fun hnil => h (peek_eq_none_iff.mpr hnil)

theorem ahead_ne_nil_of_any (h : (r.peek 0).any p = true) : r.ahead ≠ [] := by
  refine ahead_ne_nil fun hnone => ?_
  rw [hnone] at h
  cases h

theorem ahead_of_peek (h : r.peek 0 = some c) : r.ahead = c :: r.advance.2.ahead := by
  rw [peek_eq] at h
  rw [ahead_advance]
  cases hahead : r.ahead with
  | nil =>
    rw [hahead] at h
    cases h
  | cons d cs =>
    rw [hahead] at h
    cases h
    rfl

theorem peek_succ (n : Nat) (r : Reader) : r.peek (n + 1) = r.advance.2.peek n := by
  rw [peek_eq, peek_eq, ahead_advance, List.getElem?_drop, Nat.add_comm]

theorem head?_ahead (r : Reader) : r.ahead.head? = r.peek 0 := by
  rw [peek_eq, List.head?_eq_getElem?]

theorem tail_ahead (r : Reader) : r.ahead.tail = r.advance.2.ahead := by
  rw [ahead_advance, List.drop_one]

/-! ## Several characters -/

theorem skip_succ (n : Nat) (r : Reader) : r.skip (n + 1) = r.advance.2.skip n := rfl

theorem skip_add (m n : Nat) (r : Reader) : r.skip (m + n) = (r.skip m).skip n := by
  induction m generalizing r with
  | zero => rw [Nat.zero_add, skip]
  | succ m ih => rw [Nat.succ_add, skip_succ, ih, skip_succ]

theorem advance_skip (n : Nat) (r : Reader) : (r.skip n).advance.2 = r.advance.2.skip n := by
  rw [← skip_succ, skip_add]
  rfl

@[simp] theorem ahead_skip (n : Nat) (r : Reader) : (r.skip n).ahead = r.ahead.drop n := by
  induction n generalizing r with
  | zero => rfl
  | succ n ih => rw [skip_succ, ih, ahead_advance, List.drop_drop, Nat.add_comm]

theorem skip_suffix (n : Nat) (r : Reader) : (r.skip n).rest <:+ r.rest := by
  induction n generalizing r with
  | zero => exact List.suffix_refl _
  | succ n ih => exact (ih r.advance.2).trans r.advance_suffix

theorem places_skip (n : Nat) (r : Reader) :
    (r.skip n).places = r.places.drop (r.ahead.take n).length := by
  induction n generalizing r with
  | zero => rfl
  | succ n ih =>
    rw [skip_succ, ih, ahead_advance]
    cases hahead : r.ahead with
    | nil => rw [places_advance_end hahead, List.drop_nil, List.take_nil, List.take_nil]
    | cons c cs =>
      rw [places_eq r, if_neg (by rw [hahead]; exact List.cons_ne_nil c cs), List.drop_succ_cons,
        List.drop_zero, List.take_succ_cons, List.length_cons, List.drop_succ_cons]

theorem take_zero (r : Reader) : r.take 0 = ([], r) := rfl

theorem take_add (m n : Nat) (r : Reader) :
    r.take (m + n) = ((r.take m).1 ++ ((r.skip m).take n).1, ((r.skip m).take n).2) := by
  rw [take, take, take, ahead_skip, List.take_add, skip_add]

theorem take_succ (n : Nat) (r : Reader) :
    r.take (n + 1) = (r.advance.1 ++ (r.advance.2.take n).1, (r.advance.2.take n).2) := by
  rw [Nat.add_comm, take_add, advance_eq]
  rfl

/-! ## Runs of characters -/

open Lexeme

/-- Reads characters as long as they satisfy `p`. -/
def readWhile (p : Char → Bool) (r : Reader) : List Char × Reader :=
  if (r.peek 0).any p then
    let after := readWhile p r.advance.2
    (r.advance.1 ++ after.1, after.2)
  else ([], r)
termination_by r.rest.length
decreasing_by exact r.length_advance_lt (ahead_ne_nil_of_any ‹_›)

/-- Reads up to `n` characters as long as they satisfy `p`. -/
def readUpTo (p : Char → Bool) : Nat → Reader → List Char × Reader
  | 0, r => ([], r)
  | n + 1, r =>
    if (r.peek 0).any p then
      let after := readUpTo p n r.advance.2
      (r.advance.1 ++ after.1, after.2)
    else ([], r)

/-- Reads `n` characters that satisfy `p`. -/
def readExactly (p : Char → Bool) (fault : LexFault) :
    Nat → Reader → Except LexFault (List Char) × Reader
  | 0, r => (.ok [], r)
  | n + 1, r =>
    if (r.peek 0).any p then
      let after := readExactly p fault n r.advance.2
      (after.1.map (r.advance.1 ++ ·), after.2)
    else (.error fault, r)

/-- Reads the rest of a number. -/
def readNumber (r : Reader) : List Char × Reader :=
  if (r.peek 0).any isExponentMark && (r.peek 1).any isSign then
    let after := readNumber r.advance.2.advance.2
    (r.advance.1 ++ r.advance.2.advance.1 ++ after.1, after.2)
  else if (r.peek 0).any fun c => isNameChar c || c == '.' then
    let after := readNumber r.advance.2
    (r.advance.1 ++ after.1, after.2)
  else ([], r)
termination_by r.rest.length
decreasing_by
  · exact Nat.lt_of_le_of_lt (r.advance.2.advance_suffix).length_le
      (r.length_advance_lt (ahead_ne_nil_of_any (Bool.and_eq_true_iff.mp ‹_›).1))
  · exact r.length_advance_lt (ahead_ne_nil_of_any ‹_›)

theorem ahead_of_any (h : (r.peek 0).any p = true) :
    ∃ c, p c = true ∧ r.ahead = c :: r.advance.2.ahead := by
  obtain ⟨c, hc, hp⟩ := (Option.any_eq_true p _).mp h
  exact ⟨c, hp, ahead_of_peek hc⟩

theorem spanLength_of_any (h : (r.peek 0).any p = true) :
    spanLength p r.ahead = spanLength p r.advance.2.ahead + 1 := by
  obtain ⟨c, hc, hahead⟩ := ahead_of_any h
  rw [hahead, spanLength_cons, if_pos hc]

theorem spanLength_of_not_any (h : ¬ (r.peek 0).any p = true) : spanLength p r.ahead = 0 := by
  rw [peek_eq] at h
  cases hahead : r.ahead with
  | nil => rfl
  | cons c cs =>
    rw [hahead] at h
    rw [spanLength_cons]
    exact if_neg h

theorem readWhile_eq (p : Char → Bool) (r : Reader) :
    r.readWhile p = r.take (spanLength p r.ahead) := by
  fun_induction readWhile p r with
  | case1 r h after ih => rw [spanLength_of_any h, take_succ, ← ih]
  | case2 r h => rw [spanLength_of_not_any h, take_zero]

theorem readUpTo_eq (p : Char → Bool) (n : Nat) (r : Reader) :
    r.readUpTo p n = r.take (min n (spanLength p r.ahead)) := by
  fun_induction readUpTo p n r with
  | case1 r => rw [Nat.zero_min, take_zero]
  | case2 n r h after ih => rw [spanLength_of_any h, Nat.succ_min_succ, take_succ, ← ih]
  | case3 n r h => rw [spanLength_of_not_any h, Nat.min_zero, take_zero]

theorem readExactly_eq (p : Char → Bool) (fault : LexFault) (n : Nat) (r : Reader) :
    r.readExactly p fault n =
      if n ≤ spanLength p r.ahead then (.ok (r.take n).1, r.skip n)
      else (.error fault, r.skip (spanLength p r.ahead)) := by
  fun_induction readExactly p fault n r with
  | case1 r => rfl
  | case2 n r h after ih =>
    rw [spanLength_of_any h, take_succ]
    by_cases hle : n ≤ spanLength p r.advance.2.ahead
    · rw [if_pos hle] at ih
      rw [if_pos (Nat.succ_le_succ hle)]
      simp only [after, ih]
      rfl
    · rw [if_neg hle] at ih
      rw [if_neg fun hsucc => hle (Nat.le_of_succ_le_succ hsucc)]
      simp only [after, ih]
      rfl
  | case3 n r h => rw [spanLength_of_not_any h, if_neg (Nat.not_succ_le_zero n), skip]

theorem numberLength_cons (c : Char) (cs : List Char) :
    numberLength (c :: cs) =
      if isExponentMark c && cs.head?.any isSign then numberLength cs.tail + 2
      else if isNameChar c || c == '.' then numberLength cs + 1
      else 0 := by
  cases cs with
  | nil => simp [numberLength]
  | cons d cs => rw [numberLength, List.head?_cons, Option.any_some, List.tail_cons]

theorem readNumber_eq (r : Reader) : r.readNumber = r.take (numberLength r.ahead) := by
  fun_induction readNumber r with
  | case1 r h after ih =>
    obtain ⟨hmark, hsign⟩ := Bool.and_eq_true_iff.mp h
    obtain ⟨c, hc, hahead⟩ := ahead_of_any hmark
    rw [peek_succ] at hsign
    rw [hahead, numberLength_cons, hc, head?_ahead, hsign, Bool.and_true, if_pos rfl, tail_ahead,
      take_succ, take_succ, ← ih, List.append_assoc]
  | case2 r hsign h after ih =>
    obtain ⟨c, hc, hahead⟩ := ahead_of_any h
    rw [peek_zero hahead, Option.any_some, peek_succ] at hsign
    rw [hahead, numberLength_cons, head?_ahead, if_neg hsign, if_pos hc, take_succ, ← ih]
  | case3 r hsign h =>
    cases hahead : r.ahead with
    | nil => rfl
    | cons c cs =>
      obtain rfl : r.advance.2.ahead = cs := ahead_advance_cons hahead
      rw [peek_zero hahead, Option.any_some, peek_succ] at hsign
      rw [peek_zero hahead, Option.any_some] at h
      rw [numberLength_cons, head?_ahead, if_neg hsign, if_neg h, take_zero]

end Reader

end CPreprocessor
