import CPreprocessor.Proofs.Expansion.Lasting
import CPreprocessor.Proofs.Expansion.Paste
import CPreprocessor.Proofs.Macro.Replacement
import CPreprocessor.Proofs.Source.Append

/-!
# Spellings through an expansion

The tokens of a source are spelled as tokens are (`Source.lexed_of_mem_scan`), and so is what comes of
them by an expansion, if the replacement lists are (`Lasting.lexed`).
-/

namespace CPreprocessor

open Lexeme

variable {c : Char} {cs u text : List Char} {kind : Kind} {n : Nat} {t r : Token}
  {tokens rest after : List Token}

namespace Token

theorem Spelled.congr (h : t.Spelled) (hform : r.form = t.form) : r.Spelled := by
  obtain ⟨hkind, htext⟩ := Prod.mk.inj hform
  cases h with
  | space h => exact .space (by rwa [IsSpace, hkind, htext])
  | alone h hlayout => exact .alone (by rwa [Alone, hkind, htext]) (by rwa [isLayout, hkind])
  | string h hbegins => exact .string (hkind.trans h) (by rwa [htext])
  | point h hpoint => exact .point (hkind.trans h) (htext.trans hpoint)

theorem Lexed.congr (h : t.Lexed) (hform : r.form = t.form) : r.Lexed := by
  obtain ⟨hkind, htext⟩ := Prod.mk.inj hform
  cases h with
  | spelled h => exact .spelled (h.congr hform)
  | comment h hbegins => exact .comment (hkind.trans h) (by rwa [htext])
  | placemarker h => exact .placemarker (hkind.trans h)

theorem spelled_blank (location : Location) : (blank location).Spelled :=
  have hblank : " ".toList.all isBlank = true := by decide
  .space (.inr ⟨rfl, (by decide : " " ≠ ""), List.all_eq_true.mp hblank⟩)

/-! ## Sources -/

/-- A significant token reads as itself alone, unless it is the point of a number. -/
theorem point_or_alone_of_first (h : first c cs = .ok (t.kind, n))
    (ht : t.text.toList = c :: cs.take n) (hlayout : t.isLayout = false) :
    t.kind = .number ∧ t.text = "." ∨ t.Alone := by
  by_cases hpoint : t.kind = .number ∧ c = '.' ∧ n = 0
  · obtain ⟨hkind, rfl, rfl⟩ := hpoint
    exact .inl ⟨hkind, String.toList_inj.mp ht⟩
  · have htake := first_take h fun hkind hc hn => hpoint ⟨hkind, hc, hn⟩
    refine .inr (alone_of_first ht ?_)
    rw [htake, List.length_take_of_le (first_le h hlayout)]

theorem lexed_of_first (h : first c cs = .ok (t.kind, n)) (ht : t.text.toList = c :: cs.take n) :
    t.Lexed := by
  cases hlayout : t.isLayout with
  | false =>
    rcases point_or_alone_of_first h ht hlayout with ⟨hkind, htext⟩ | halone
    · exact .spelled (.point hkind htext)
    · exact .spelled (.alone halone hlayout)
  | true =>
    obtain ⟨rfl, hkind, rfl⟩ | ⟨-, hblank, hkind, rfl⟩ | ⟨rfl, hkind, d, rest, m, rfl, rfl, hd⟩ :=
      first_layout_cases h hlayout
    · exact .spelled (.space (.inl ⟨hkind, String.toList_inj.mp ht⟩))
    · refine .spelled (.space (.inr ⟨hkind, ?_, ?_⟩))
      · rintro hempty
        rw [hempty] at ht
        cases ht
      · rw [ht]
        refine List.forall_mem_cons.mpr ⟨hblank, spanLength_eq_length_iff.mp ?_⟩
        rw [spanLength_take_of_le (Nat.le_refl _), List.length_take_of_le (spanLength_le _ _)]
    · exact .comment hkind ⟨d, rest.take m, by rw [ht, List.take_succ_cons], hd.imp And.left And.left⟩

end Token

theorem exists_first_of_mem_lexemes (h : .token kind text ∈ lexemes u) :
    ∃ c cs n, first c cs = .ok (kind, n) ∧ text = c :: cs.take n := by
  fun_induction lexemes u with
  | case1 => cases h
  | case2 c cs kind' n hfirst ih =>
    rcases List.mem_cons.mp h with heq | h
    · cases heq
      exact ⟨c, cs, n, hfirst, rfl⟩
    · exact ih h
  | case3 c cs cause hfirst n ih =>
    rcases List.mem_cons.mp h with heq | h
    · cases heq
    · exact ih h

/-- A source has blanks in the places of its faults, and what is read first of a part of its text. -/
theorem Source.blank_or_first_of_mem_scan {s : Source} {t : Scanned} (h : t ∈ s.scan) :
    t.token = Token.blank t.token.location ∨
      ∃ c cs n, first c cs = .ok (t.token.kind, n) ∧ t.token.text.toList = c :: cs.take n := by
  obtain ⟨l, hl, p, -, rfl⟩ := exists_of_mem_settle h
  cases l with
  | fault cause skipped => exact .inl rfl
  | token kind text =>
    obtain ⟨c, cs, n, hfirst, rfl⟩ := exists_first_of_mem_lexemes hl
    exact .inr ⟨c, cs, n, hfirst, String.toList_ofList⟩

theorem Source.lexed_of_mem_scan {s : Source} {t : Scanned} (h : t ∈ s.scan) : t.token.Lexed := by
  rcases blank_or_first_of_mem_scan h with hblank | ⟨c, cs, n, hfirst, htext⟩
  · exact hblank ▸ .spelled (Token.spelled_blank _)
  · exact Token.lexed_of_first hfirst htext

theorem Token.IsRead.lexed (h : t.IsRead) : t.Lexed := by
  obtain ⟨s, read, hread, u, hu, hform⟩ := h
  obtain ⟨scanned, hscanned, rfl⟩ := Source.exists_mem_scan hread hu
  exact (Source.lexed_of_mem_scan hscanned).congr hform.symm

/-! ## Expansion -/

namespace Lexeme

/-- A number goes on with all characters of names. -/
theorem numberLength_of_nameChars (h : ∀ d ∈ cs, isNameChar d = true) :
    numberLength cs = cs.length := by
  fun_induction numberLength cs with
  | case1 => rfl
  | case2 => rfl
  | case3 d hd =>
    rw [h d List.mem_cons_self, Bool.true_or] at hd
    exact absurd rfl hd
  | case4 d e cs hmark ih =>
    have he := h e (List.mem_cons_of_mem d List.mem_cons_self)
    simp only [Bool.and_eq_true, isSign, Bool.or_eq_true, beq_iff_eq] at hmark
    rcases hmark.2 with rfl | rfl <;> exact absurd he (by decide)
  | case5 d e cs hmark hd ih =>
    rw [ih (List.forall_mem_cons.mp h).2]
    rfl
  | case6 d e cs hmark hd =>
    rw [h d List.mem_cons_self, Bool.true_or] at hd
    exact absurd rfl hd

theorem first_of_nameChars (hc : c.isDigit = true) (h : ∀ d ∈ cs, isNameChar d = true) :
    first c cs = .ok (.number, cs.length) := by
  have hdigit := isDigit_of_isDigit hc
  rw [(noLayout_of_class (.inr (.inl hdigit))).first_eq, startsNumber, hdigit, Bool.true_or, if_pos rfl,
    numberLength_of_nameChars h]

end Lexeme

namespace Token

theorem first_of_digits (hc : c.isDigit = true) (h : ∀ d ∈ cs, d.isDigit = true) :
    first c cs = .ok (.number, cs.length) :=
  first_of_nameChars hc fun d hd => by rw [isNameChar, h d hd, Bool.or_true]

theorem lexed_number {line : Int} (hline : 0 ≤ line) (hkind : t.kind = .number)
    (htext : t.text = toString line) : t.Lexed := by
  obtain ⟨n, rfl⟩ := Int.eq_ofNat_of_zero_le hline
  have hu : t.text.toList = Nat.toDigits 10 n := by
    rw [htext]
    exact Nat.toList_repr
  have hdigits : ∀ d ∈ Nat.toDigits 10 n, d.isDigit = true := fun d =>
    Nat.isDigit_of_mem_toDigits (by decide) (by decide)
  cases hcs : Nat.toDigits 10 n with
  | nil => exact absurd hcs Nat.toDigits_ne_nil
  | cons c cs =>
    rw [hcs] at hu hdigits
    obtain ⟨hc, hcs⟩ := List.forall_mem_cons.mp hdigits
    refine .spelled (.alone (alone_of_first hu ?_) (by rw [isLayout, hkind]; rfl))
    rw [hkind]
    exact first_of_digits hc hcs

theorem lexed_quoted {text : List Char} (hkind : t.kind = .string)
    (htext : t.text = String.ofList ('"' :: text ++ ['"'])) : t.Lexed := by
  refine .spelled (.string hkind ⟨[], text ++ ['"'], ?_, .inl rfl⟩)
  rw [htext, String.toList_ofList]
  rfl

theorem lexed_dynamicValue (t : Token) (hline : 0 ≤ t.location.line) : (dynamicValue t).Lexed := by
  rw [dynamicValue]
  split
  · exact lexed_number hline rfl rfl
  · exact lexed_quoted rfl rfl

theorem Lexed.withoutNewline (h : t.Lexed) : t.withoutNewline.Lexed := by
  rw [Token.withoutNewline]
  split
  · exact .spelled ((spelled_blank t.location).congr rfl)
  · exact h

end Token

/-- Spellings of tokens, in lines with numbers from zero on, last through an expansion by definitions
that are made of tokens. The number of a line is the value of a macro. -/
theorem Lasting.lexed {table : Table} (h : table.Bodies Token.Lexed) :
    Lasting table (fun location => 0 ≤ location.line) fun t => t.Lexed ∧ 0 ≤ t.location.line :=
  have stands : Lasting table _ _ := .standAt table fun location => 0 ≤ location.line
  { location _ h := h.2
    paint h := ⟨h.1.congr rfl, h.2⟩
    hideBy _ h := ⟨h.1.congr rfl, h.2⟩
    withoutNewline h := ⟨h.1.withoutNewline, stands.withoutNewline h.2⟩
    dynamicValue {t} h := ⟨t.lexed_dynamicValue h.2, stands.dynamicValue h.2⟩
    copy hd ht hsite := ⟨(h _ hd _ ht).congr rfl, hsite⟩
    stringize _ hsite := ⟨Token.lexed_quoted rfl rfl, hsite⟩
    placemarker hsite := ⟨.placemarker rfl, hsite⟩
    paste hjoins hleft hright hsite hpaste :=
      ⟨hleft.1.paste hright.1 hpaste, stands.paste hjoins hleft.2 hright.2 hsite hpaste⟩ }

end CPreprocessor
