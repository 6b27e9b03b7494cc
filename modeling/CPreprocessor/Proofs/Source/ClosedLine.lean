import Mathlib
import CPreprocessor.Proofs.Source.SideBySide

/-!
# A text with a line end after it

A line end after a text ends its last lexeme and is one itself, if the text is read without a fault
(`lexemes_append_newline`). A blank before a text is a lexeme, or one more character of the first
(`lexemes_blank_cons`).
-/

namespace CPreprocessor

open Lexeme

/-! ## The first lexeme -/

namespace Lexeme

variable {p : Char → Bool} {c : Char} {cs : List Char} {kind : Kind} {n : Nat}

theorem spanLength_append_newline (hp : p '\n' = false) (cs : List Char) :
    spanLength p (cs ++ ['\n']) = spanLength p cs := by
  rcases Nat.lt_or_eq_of_le (spanLength_le p cs) with hlt | heq
  · exact spanLength_append_of_lt hlt _
  · rw [heq]
    exact spanLength_append_of_stop heq fun d hd => by rw [← Option.some.inj hd, hp]

theorem Stops.append_newline {u w : List Char} (h : Stops kind u w) : Stops kind u (w ++ ['\n']) :=
  h.of_prefixes (.inr rfl) fun _ hq hpre => (List.prefix_concat_iff.mp hpre).resolve_left fun heq =>
    hq (heq ▸ List.mem_append_right w List.mem_cons_self)

/-- What is read first of a text is read first of it before a line end, too. -/
theorem first_append_newline (h : first c cs = .ok (kind, n)) :
    first c (cs ++ ['\n']) = .ok (kind, n) := by
  cases hkind : kind.isLayout with
  | true =>
    obtain ⟨rfl, rfl, rfl⟩ | ⟨hnewline, hblank, rfl, rfl⟩ |
      ⟨rfl, rfl, d, rest, m, rfl, rfl, ⟨rfl, rfl⟩ | ⟨rfl, hm⟩⟩ := first_layout_cases h hkind
    · rfl
    · rw [first_blank hblank, spanLength_append_newline (by decide)]
    · rw [List.cons_append, first_line, spanLength_append_newline (by decide)]
    · rw [List.cons_append, first_block, commentLength_append hm]
      rfl
  | false =>
    have hstops := (stops_of_first h hkind).append_newline
    have hlength : (cs.take n).length = n := List.length_take_of_le (first_le h hkind)
    have hsplit : cs.take n ++ (cs.drop n ++ ['\n']) = cs ++ ['\n'] := by
      rw [← List.append_assoc, List.take_append_drop]
    by_cases hnumber : kind = .number
    · -- a point before a digit that goes on no number is no number alone
      subst hnumber
      obtain ⟨hstarts, rfl⟩ := startsNumber_of_first h
      have hstarts' : startsNumber c (cs ++ ['\n']) = true :=
        startsNumber_of_take (n := cs.length) (by rwa [List.take_left])
      have hplain : NoLayout c (cs ++ ['\n']) := noLayout_of_class <| by
        rw [startsNumber, Bool.or_eq_true, Bool.and_eq_true, decide_eq_true_eq] at hstarts
        exact hstarts.elim (fun hdigit => .inr (.inl hdigit)) fun hpoint => .inr (.inr (.inr hpoint.1))
      have hnumber := numberLength_append_of_stop ((numberLength_take cs).trans hlength.symm) hstops.1
        fun e he => hstops.2 e (by rw [List.getLast?_cons, Option.mem_def.mp he]; rfl)
      rw [hplain.first_eq, if_pos hstarts', ← hsplit, hnumber, hlength]
    · have halone : first c (cs.take n) = .ok (kind, (cs.take n).length) := by
        rw [hlength, first_take h fun hkind => absurd hkind hnumber]
      have hmore := first_append_of_stops halone hkind hstops
      rwa [hsplit, hlength] at hmore

end Lexeme

/-! ## All lexemes -/

section
variable {u : List Char}

/-- Whether no lexeme stands for a fault. -/
def Faultless (ls : List Lexeme) : Prop := ∀ l ∈ ls, ∃ kind text, l = .token kind text

theorem faultless_of_tokens (ts : List Token) : Faultless (ts.map Token.lexeme) := by
  intro l hl
  obtain ⟨t, -, rfl⟩ := List.mem_map.mp hl
  exact ⟨t.kind, t.text.toList, rfl⟩

/-- A line end after a text is read after all that the text is read as. -/
theorem lexemes_append_newline (h : Faultless (lexemes u)) :
    lexemes (u ++ ['\n']) = lexemes u ++ [.token .newline ['\n']] := by
  fun_induction lexemes u with
  | case1 =>
    have hfirst : first '\n' [] = .ok (.newline, 0) := rfl
    rw [List.nil_append, List.nil_append, lexemes, hfirst]
    simp only [List.take_nil, List.drop_nil]
    rw [lexemes]
  | case2 c cs kind n hfirst ih =>
    have hn := le_length_of_first hfirst
    rw [List.cons_append, lexemes, first_append_newline hfirst]
    simp only
    rw [List.take_append_of_le_length hn, List.drop_append_of_le_length hn,
      ih (List.forall_mem_cons.mp h).2, List.cons_append]
  | case3 c cs cause hfirst n ih =>
    obtain ⟨⟨kind, text, heq⟩, -⟩ := List.forall_mem_cons.mp h
    cases heq

/-- A blank before a text is read before what the text is read as, or with the blanks at its start. -/
theorem lexemes_blank_cons (u : List Char) :
    ∃ text ls, lexemes (' ' :: u) = .token .whitespace text :: ls ∧
      (lexemes u = ls ∨ ∃ blanks, lexemes u = .token .whitespace blanks :: ls) := by
  have hspace : lexemes (' ' :: u) = .token .whitespace (' ' :: u.take (spanLength isBlank u)) ::
      lexemes (u.drop (spanLength isBlank u)) := by
    rw [lexemes, first_blank (by decide)]
  refine ⟨_, _, hspace, ?_⟩
  cases u with
  | nil => exact .inl rfl
  | cons c cs =>
    by_cases hc : isBlank c = true
    · refine .inr ⟨c :: cs.take (spanLength isBlank cs), ?_⟩
      rw [lexemes, first_blank hc, spanLength_cons, if_pos hc, List.drop_succ_cons]
    · refine .inl ?_
      rw [spanLength_cons, if_neg hc, List.drop_zero]

theorem kind_of_mem_lexemes (hline : '\n' ∉ u) : ∀ l ∈ lexemes u, l.kind ≠ .newline := by
  intro l hl hkind
  cases l with
  | fault cause skipped => cases hkind
  | token kind text =>
    obtain rfl : kind = .newline := hkind
    have htext := text_newline hl
    refine hline ?_
    rw [← flatMap_text_lexemes u]
    exact List.mem_flatMap.mpr ⟨_, hl, by rw [Lexeme.text, htext]; exact List.mem_cons_self⟩

end

/-! ## Sources of one line -/

/-- The characters of a text stand in its first line, if no other line follows. -/
theorem line_of_mem_places {p q : Place} {u : List Char} (h : '\n' ∉ u.dropLast)
    (hq : q ∈ (places p u).dropLast) : q.line = p.line := by
  -- a splice may only stand at the end
  have hend : ∀ (front : List Char) {after : List Char}, '\n' ∉ (front ++ '\n' :: after).dropLast →
      ∀ p, q ∉ (places p after).dropLast := by
    intro front after h p hq
    cases after with
    | nil => cases hq
    | cons c after =>
      rw [List.dropLast_append_of_ne_nil (List.cons_ne_nil _ _),
        List.dropLast_cons_of_ne_nil (List.cons_ne_nil _ _)] at h
      exact h (List.mem_append_right front List.mem_cons_self)
  fun_induction places p u with
  | case1 p => cases hq
  | case2 p cs ih => exact absurd hq (hend ['\\'] h _)
  | case3 p cs ih => exact absurd hq (hend ['\\', '\r'] h _)
  | case4 p c cs hsplice hreturn ih =>
    rw [List.dropLast_cons_of_ne_nil places_ne_nil] at hq
    rcases List.mem_cons.mp hq with rfl | hq
    · rfl
    · cases cs with
      | nil => cases hq
      | cons d cs =>
        rw [List.dropLast_cons_of_ne_nil (List.cons_ne_nil _ _), List.mem_cons, not_or] at h
        rw [ih h.2 hq, Place.after, if_neg (Ne.symm h.1)]

namespace Source

variable {s : Source} {t : Scanned}

theorem file_of_mem_scan (ht : t ∈ s.scan) : t.token.location.file = s.file := by
  rw [scan_eq_settle] at ht
  obtain ⟨l, -, p, -, rfl⟩ := exists_of_mem_settle ht
  rw [location_token]
  rfl

theorem line_of_mem_scan_single (h : '\n' ∉ s.text.toList.dropLast) (ht : t ∈ s.scan) :
    t.token.location.line = s.firstLine := by
  rw [scan_eq_settle] at ht
  obtain ⟨l, -, p, hp, rfl⟩ := exists_of_mem_settle ht
  rw [location_token]
  exact line_of_mem_places h hp

theorem fault_of_mem_scan (h : Faultless (lexemes (despliced s.text.toList))) (ht : t ∈ s.scan) :
    t.fault = none := by
  rw [scan_eq_settle] at ht
  obtain ⟨l, hl, p, -, rfl⟩ := exists_of_mem_settle ht
  obtain ⟨kind, text, rfl⟩ := h l hl
  rfl

end Source

end CPreprocessor
