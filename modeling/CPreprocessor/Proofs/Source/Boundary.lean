import CPreprocessor.Proofs.Source.Lexeme
import CPreprocessor.Proofs.Text.Span

/-!
# Where a lexeme ends

What is read first of a text is read of it alone as well (`Lexeme.first_take`). A text that reads as
one token is read first of a longer text too, if what follows does not go on with it: this takes the
next character for a word, one more for a word that may give a literal its encoding, and the longer
punctuators for a punctuator (`Lexeme.first_append_of_stops`).
-/

namespace CPreprocessor

namespace Lexeme

variable {p : Char → Bool} {c quote : Char} {cs w : List Char} {kind : Kind} {m n : Nat}

/-! ## Runs of characters -/

theorem spanLength_le (p : Char → Bool) (cs : List Char) : spanLength p cs ≤ cs.length :=
  (List.takeWhile_sublist p).length_le

theorem spanLength_eq_length_iff : spanLength p cs = cs.length ↔ ∀ d ∈ cs, p d = true := by
  refine ⟨fun h => ?_, fun h => ?_⟩
  · have hall := List.all_takeWhile (p := p) (l := cs)
    rw [(List.takeWhile_sublist p).eq_of_length h] at hall
    exact List.all_eq_true.mp hall
  · have hself : (cs ++ []).takeWhile p = cs := takeWhile_append_of_stop h nofun
    rw [List.append_nil] at hself
    rw [spanLength, hself]

theorem spanLength_append_of_lt (h : spanLength p cs < cs.length) (w : List Char) :
    spanLength p (cs ++ w) = spanLength p cs := by
  unfold spanLength at h ⊢
  rw [List.takeWhile_append, if_neg (Nat.ne_of_lt h)]

theorem spanLength_append_of_stop (h : spanLength p cs = cs.length)
    (hstop : ∀ d ∈ w.head?, p d = false) : spanLength p (cs ++ w) = cs.length := by
  unfold spanLength at h ⊢
  rw [List.takeWhile_append, if_pos h, takeWhile_eq_nil_of_stop hstop, List.append_nil]

theorem spanLength_take_of_le (h : spanLength p cs ≤ n) :
    spanLength p (cs.take n) = spanLength p cs := by
  rw [spanLength_take, Nat.min_eq_right h]

/-- Whether a cut right after a run at the start of `cs`, or more text after `cs`, leaves the run as
it is. -/
structure IsRun (run : List Char → Nat) (cs : List Char) : Prop where
  take : ∀ m, run cs ≤ m → run (cs.take m) = run cs
  append : run cs < cs.length → ∀ w, run (cs ++ w) = run cs

theorem IsRun.const (n : Nat) (cs : List Char) : IsRun (fun _ => n) cs :=
  ⟨fun _ _ => rfl, fun _ _ => rfl⟩

theorem IsRun.span (p : Char → Bool) (cs : List Char) : IsRun (spanLength p) cs :=
  ⟨fun _ => spanLength_take_of_le, spanLength_append_of_lt⟩

theorem IsRun.spanTake (p : Char → Bool) (width : Nat) (cs : List Char) :
    IsRun (fun us => spanLength p (us.take width)) cs where
  take m hm := by
    rw [List.take_take, Nat.min_comm, ← List.take_take, spanLength_take_of_le hm]
  append h w := by
    have hle := spanLength_le p cs
    rw [spanLength_take] at h
    rw [spanLength_take, spanLength_take]
    by_cases hspan : spanLength p cs < cs.length
    · rw [spanLength_append_of_lt hspan]
    · have hmore : spanLength p cs ≤ spanLength p (cs ++ w) := by
        rw [spanLength, spanLength, List.takeWhile_append]
        split
        · rw [List.length_append]
          exact Nat.le_trans hle (Nat.le_add_right _ _)
        · exact Nat.le_refl _
      omega

theorem head?_of_take {d : Char} (h : (cs.take n).head? = some d) : cs.head? = some d := by
  cases cs with
  | nil => exact absurd h (by rw [List.take_nil]; exact nofun)
  | cons c cs =>
    cases n with
    | zero => cases h
    | succ n => exact h

/-! ## Numbers -/

theorem numberLength_of_stop (hname : ∀ d ∈ w.head?, isNameChar d = false ∧ d ≠ '.') :
    numberLength w = 0 := by
  have hone : ∀ d ∈ w.head?, (isNameChar d || d == '.') = false := by
    intro d hd
    rw [(hname d hd).1, Bool.false_or]
    exact beq_eq_false_iff_ne.mpr (hname d hd).2
  fun_cases numberLength w with
  | case1 => rfl
  | case2 d h => rw [hone d rfl] at h; cases h
  | case3 d h => rfl
  | case4 d e cs h =>
    have hmark : isNameChar d = true := by
      simp only [isExponentMark, Bool.and_eq_true, Bool.or_eq_true, beq_iff_eq] at h
      rcases h.1 with ((rfl | rfl) | rfl) | rfl <;> decide
    rw [(hname d rfl).1] at hmark
    cases hmark
  | case5 d e cs _ h => rw [hone d rfl] at h; cases h
  | case6 => rfl

theorem numberLength_le (cs : List Char) : numberLength cs ≤ cs.length := by
  fun_induction numberLength cs with
  | case1 => exact Nat.le_refl 0
  | case2 => exact Nat.le_refl 1
  | case3 => exact Nat.zero_le _
  | case4 c d cs hmark ih => exact Nat.succ_le_succ (Nat.succ_le_succ ih)
  | case5 c d cs hmark hc ih => exact Nat.succ_le_succ ih
  | case6 => exact Nat.zero_le _

/-- A number goes on as long as it can. -/
theorem numberLength_stop (cs : List Char) :
    ∀ d ∈ (cs.drop (numberLength cs)).head?, isNameChar d = false ∧ d ≠ '.' := by
  fun_induction numberLength cs with
  | case1 => rintro d ⟨⟩
  | case2 c h => rintro d ⟨⟩
  | case3 c h =>
    rintro d ⟨⟩
    simpa only [Bool.or_eq_true, beq_iff_eq, not_or, Bool.not_eq_true] using h
  | case4 c d cs h ih => exact ih
  | case5 c d cs hmark h ih => exact ih
  | case6 c d cs hmark h =>
    rintro e ⟨⟩
    simpa only [Bool.or_eq_true, beq_iff_eq, not_or, Bool.not_eq_true] using h

theorem numberLength_take (cs : List Char) :
    numberLength (cs.take (numberLength cs)) = numberLength cs := by
  fun_induction numberLength cs with
  | case1 => rfl
  | case2 c h => rw [List.take_succ_cons, List.take_nil, numberLength, if_pos h]
  | case3 c h => rfl
  | case4 c d cs h ih =>
    rw [List.take_succ_cons, List.take_succ_cons, numberLength, if_pos h, ih]
  | case5 c d cs hmark h ih =>
    rw [List.take_succ_cons]
    cases hn : numberLength (d :: cs) with
    | zero => rw [List.take_zero, numberLength, if_pos h]
    | succ n =>
      rw [hn, List.take_succ_cons] at ih
      rw [List.take_succ_cons, numberLength, if_neg hmark, if_pos h, ih]
  | case6 c d cs => rfl

theorem numberLength_append_of_stop (h : numberLength cs = cs.length)
    (hname : ∀ d ∈ w.head?, isNameChar d = false ∧ d ≠ '.')
    (hsign : ∀ e ∈ cs.getLast?, isExponentMark e = true → ∀ d ∈ w.head?, isSign d = false) :
    numberLength (cs ++ w) = cs.length := by
  fun_induction numberLength cs with
  | case1 => exact numberLength_of_stop hname
  | case2 c hc =>
    cases w with
    | nil => rw [List.append_nil, numberLength, if_pos hc, List.length_singleton]
    | cons d w =>
      have hmark : ¬ (isExponentMark c && isSign d) = true := by
        rw [Bool.and_eq_true]
        rintro ⟨hmark, hd⟩
        rw [hsign c rfl hmark d rfl] at hd
        cases hd
      rw [List.singleton_append, numberLength, if_neg hmark, if_pos hc, numberLength_of_stop hname,
        List.length_singleton]
  | case3 c => cases h
  | case4 c d cs hmark ih =>
    have hlast : ∀ e ∈ cs.getLast?, isExponentMark e = true → ∀ d ∈ w.head?, isSign d = false := by
      cases cs with
      | nil => rintro e ⟨⟩
      | cons e cs =>
        rw [List.getLast?_cons_cons, List.getLast?_cons_cons] at hsign
        exact hsign
    rw [List.cons_append, List.cons_append, numberLength, if_pos hmark,
      ih (Nat.add_right_cancel h) hlast, List.length_cons, List.length_cons]
  | case5 c d cs hmark hc ih =>
    rw [List.getLast?_cons_cons] at hsign
    have ih := ih (Nat.add_right_cancel h) hsign
    rw [List.cons_append] at ih
    rw [List.cons_append, List.cons_append, numberLength, if_neg hmark, if_pos hc, ih,
      List.length_cons (a := c)]
  | case6 c d cs => cases h

/-! ## Literals -/

/-- The rest of an escape is a run of characters. -/
theorem escapeLength_run (h : escapeLength (c :: cs) = .ok n) :
    ∃ run : List Char → Nat, IsRun run cs ∧ n = run cs + 1 ∧
      ∀ us, run us = run cs → escapeLength (c :: us) = .ok n := by
  have huniversal : ∀ width fault,
      (∀ us, escapeLength (c :: us) = (universalLength width fault us).map (· + 1)) →
      ∃ run : List Char → Nat, IsRun run cs ∧ n = run cs + 1 ∧
        ∀ us, run us = run cs → escapeLength (c :: us) = .ok n := by
    intro width fault hescape
    rw [hescape] at h
    obtain ⟨m, hm, rfl⟩ := map_eq_ok_iff.mp h
    unfold universalLength at hm
    split at hm
    · rename_i hspan
      cases hm
      refine ⟨_, .spanTake isHexDigit width cs, by rw [hspan], fun us hus => ?_⟩
      rw [hescape, universalLength, if_pos (hus.trans hspan)]
      rfl
    · cases hm
  by_cases hsimple : isSimpleEscape c = true
  · have hescape : ∀ us, escapeLength (c :: us) = .ok 1 :=
      fun us => by rw [escapeLength, if_pos hsimple]
    rw [hescape] at h
    cases h
    exact ⟨_, .const 0 cs, rfl, fun us _ => hescape us⟩
  by_cases hoctal : isOctalDigit c = true
  · have hescape : ∀ us, escapeLength (c :: us) = .ok (spanLength isOctalDigit (us.take 2) + 1) :=
      fun us => by rw [escapeLength, if_neg hsimple, if_pos hoctal]
    rw [hescape] at h
    cases h
    exact ⟨_, .spanTake isOctalDigit 2 cs, rfl,
      fun us hus => (hescape us).trans (congrArg (Except.ok <| · + 1) hus)⟩
  by_cases hhex : c = 'x'
  · have hescape : ∀ us, escapeLength (c :: us) =
        if spanLength isHexDigit us = 0 then .error .hexEscapeWithoutDigits
        else .ok (spanLength isHexDigit us + 1) :=
      fun us => by rw [escapeLength, if_neg hsimple, if_neg hoctal, if_pos hhex]
    rw [hescape] at h
    split at h
    · cases h
    · rename_i hdigits
      cases h
      refine ⟨_, .span isHexDigit cs, rfl, fun us hus => ?_⟩
      rw [hescape, hus, if_neg hdigits]
  by_cases hshort : c = 'u'
  · exact huniversal 4 .incompleteShortName fun us => by
      rw [escapeLength, if_neg hsimple, if_neg hoctal, if_neg hhex, if_pos hshort]
  by_cases hlong : c = 'U'
  · exact huniversal 8 .incompleteLongName fun us => by
      rw [escapeLength, if_neg hsimple, if_neg hoctal, if_neg hhex, if_neg hshort, if_pos hlong]
  · rw [escapeLength, if_neg hsimple, if_neg hoctal, if_neg hhex, if_neg hshort, if_neg hlong] at h
    cases h

theorem escapeLength_take (h : escapeLength cs = .ok n) {m : Nat} (hm : n ≤ m) :
    escapeLength (cs.take m) = .ok n := by
  cases cs with
  | nil => cases h
  | cons c cs =>
    obtain ⟨run, hrun, rfl, hescape⟩ := escapeLength_run h
    cases m with
    | zero => cases hm
    | succ m =>
      rw [List.take_succ_cons]
      exact hescape _ (hrun.take m (Nat.le_of_succ_le_succ hm))

theorem escapeLength_append_of_lt (h : escapeLength cs = .ok n) (hn : n < cs.length)
    (w : List Char) : escapeLength (cs ++ w) = .ok n := by
  cases cs with
  | nil => cases h
  | cons c cs =>
    obtain ⟨run, hrun, rfl, hescape⟩ := escapeLength_run h
    exact hescape _ (hrun.append (Nat.lt_of_succ_lt_succ hn) w)

theorem bodyLength_nil : bodyLength quote [] = .error (unterminated quote) := by
  rw [bodyLength]

/-- An escape in a literal ends before the literal does. -/
theorem lt_length_of_bodyLength_drop (h : bodyLength quote (cs.drop n) = .ok m) : n < cs.length := by
  refine Nat.lt_of_not_le fun hle => ?_
  rw [List.drop_eq_nil_of_le hle, bodyLength_nil] at h
  cases h

theorem bodyLength_le (h : bodyLength quote cs = .ok n) : n ≤ cs.length := by
  fun_induction bodyLength quote cs generalizing n with
  | case1 => cases h
  | case2 => cases h
  | case3 cs hnewline =>
    cases h
    exact Nat.le_add_left 1 _
  | case4 => cases h
  | case5 cs k hk hnewline hquote ih =>
    obtain ⟨m, hm, rfl⟩ := map_eq_ok_iff.mp h
    have hlt := lt_length_of_bodyLength_drop hm
    have hle := ih hm
    rw [List.length_drop] at hle
    rw [List.length_cons]
    omega
  | case6 c cs hnewline hquote hescape ih =>
    obtain ⟨m, hm, rfl⟩ := map_eq_ok_iff.mp h
    exact Nat.succ_le_succ (ih hm)

theorem bodyLength_take (h : bodyLength quote cs = .ok n) :
    bodyLength quote (cs.take n) = .ok n := by
  fun_induction bodyLength quote cs generalizing n with
  | case1 => cases h
  | case2 => cases h
  | case3 cs hnewline =>
    cases h
    exact bodyLength_mark hnewline []
  | case4 => cases h
  | case5 cs k hk hnewline hquote ih =>
    obtain ⟨m, hm, rfl⟩ := map_eq_ok_iff.mp h
    have hescape := escapeLength_take hk (Nat.le_add_left k m)
    rw [← Nat.add_assoc, List.take_succ_cons, bodyLength_escape hquote hescape, List.drop_take,
      Nat.add_sub_cancel, ih hm]
    rfl
  | case6 c cs hnewline hquote hescape ih =>
    obtain ⟨m, hm, rfl⟩ := map_eq_ok_iff.mp h
    rw [List.take_succ_cons, bodyLength_plain hnewline hquote hescape, ih hm]
    rfl

theorem bodyLength_append_of_ok (h : bodyLength quote cs = .ok n) (w : List Char) :
    bodyLength quote (cs ++ w) = .ok n := by
  fun_induction bodyLength quote cs generalizing n with
  | case1 => cases h
  | case2 => cases h
  | case3 cs hnewline =>
    rw [← h]
    exact bodyLength_mark hnewline (cs ++ w)
  | case4 => cases h
  | case5 cs k hk hnewline hquote ih =>
    obtain ⟨m, hm, rfl⟩ := map_eq_ok_iff.mp h
    have hlt := lt_length_of_bodyLength_drop hm
    rw [List.cons_append, bodyLength_escape hquote (escapeLength_append_of_lt hk hlt w),
      List.drop_append_of_le_length (Nat.le_of_lt hlt), ih hm]
    rfl
  | case6 c cs hnewline hquote hescape ih =>
    obtain ⟨m, hm, rfl⟩ := map_eq_ok_iff.mp h
    rw [List.cons_append, bodyLength_plain hnewline hquote hescape, ih hm]
    rfl

theorem bodyLength_of_literalLength (h : literalLength quote cs = .ok (kind, n)) :
    bodyLength quote cs = .ok n ∧
      ∀ us, bodyLength quote us = .ok n → literalLength quote us = .ok (kind, n) := by
  unfold literalLength at h ⊢
  cases hbody : bodyLength quote cs with
  | error fault =>
    rw [hbody] at h
    cases h
  | ok m =>
    rw [hbody] at h
    simp only at h
    have hmn : m = n := by
      split at h
      · cases h
        rfl
      split at h
      · cases h
      · cases h
        rfl
    subst hmn
    refine ⟨rfl, fun us hus => ?_⟩
    rw [hus]
    exact h

theorem literalLength_take (h : literalLength quote cs = .ok (kind, n)) :
    literalLength quote (cs.take n) = .ok (kind, n) :=
  have ⟨hbody, hliteral⟩ := bodyLength_of_literalLength h
  hliteral _ (bodyLength_take hbody)

theorem literalLength_append_of_ok (h : literalLength quote cs = .ok (kind, n)) (w : List Char) :
    literalLength quote (cs ++ w) = .ok (kind, n) :=
  have ⟨hbody, hliteral⟩ := bodyLength_of_literalLength h
  hliteral _ (bodyLength_append_of_ok hbody w)

/-! ## Words -/

/-- A quotation mark of a literal. -/
def IsQuote (c : Char) : Prop := c = '"' ∨ c = '\''

instance : DecidablePred IsQuote := fun c => inferInstanceAs (Decidable (c = '"' ∨ c = '\''))

theorem IsQuote.not_isNameChar (h : IsQuote c) : isNameChar c = false := by
  rcases h with rfl | rfl <;> decide

/-- A word is all of a name, unless it gives a literal its encoding. -/
theorem nameLength_word {word : List Char} (hword : spanLength isNameChar word = word.length)
    (hstop : ∀ d ∈ w.head?, isNameChar d = false)
    (hpre : c :: word ∈ encodingPrefixes → ∀ d ∈ w.head?, ¬ IsQuote d) :
    nameLength c (word ++ w) = .ok (.identifier, word.length) := by
  simp only [nameLength, spanLength_append_of_stop hword hstop, List.take_left, List.drop_left]
  split
  · rename_i hcontains
    have hquote := hpre (List.contains_iff_mem.mp hcontains)
    split
    · exact absurd (.inl rfl) (hquote '"' rfl)
    · exact absurd (.inr rfl) (hquote '\'' rfl)
    · rfl
  · rfl

theorem nameLength_encoded {word : List Char} (hword : spanLength isNameChar word = word.length)
    (hpre : c :: word ∈ encodingPrefixes) (hquote : IsQuote quote) :
    nameLength c (word ++ quote :: cs) =
      (literalLength quote cs).map fun (kind, m) => (kind, word.length + 1 + m) := by
  have hstop : ∀ d ∈ (quote :: cs).head?, isNameChar d = false := by
    rintro d ⟨⟩
    exact hquote.not_isNameChar
  simp only [nameLength, spanLength_append_of_stop hword hstop, List.take_left, List.drop_left]
  rw [if_pos (List.contains_iff_mem.mpr hpre)]
  rcases hquote with rfl | rfl
  · rfl
  · rfl

/-- The characters of a name at the start of a text, and what follows them. -/
theorem exists_word (cs : List Char) :
    ∃ word after, cs = word ++ after ∧ spanLength isNameChar word = word.length ∧
      ∀ d ∈ after.head?, isNameChar d = false :=
  ⟨cs.takeWhile isNameChar, cs.dropWhile isNameChar, List.takeWhile_append_dropWhile.symm,
    spanLength_eq_length_iff.mpr (List.all_eq_true.mp List.all_takeWhile),
    fun _ => head?_dropWhile_eq_false⟩

theorem nameLength_cases (h : nameLength c cs = .ok (kind, n)) :
    ∃ word after, cs = word ++ after ∧ spanLength isNameChar word = word.length ∧
      ((kind = .identifier ∧ n = word.length ∧ (∀ d ∈ after.head?, isNameChar d = false) ∧
          (c :: word ∈ encodingPrefixes → ∀ d ∈ after.head?, ¬ IsQuote d)) ∨
        (c :: word ∈ encodingPrefixes ∧ ∃ quote rest m, IsQuote quote ∧ after = quote :: rest ∧
          literalLength quote rest = .ok (kind, m) ∧ n = word.length + 1 + m)) := by
  obtain ⟨word, after, rfl, hword, hstop⟩ := exists_word cs
  refine ⟨word, after, rfl, hword, ?_⟩
  have hquoted : ∀ quote rest, IsQuote quote → c :: word ∈ encodingPrefixes →
      nameLength c (word ++ quote :: rest) = .ok (kind, n) →
        ∃ m, literalLength quote rest = .ok (kind, m) ∧ n = word.length + 1 + m := by
    intro quote rest hquote hpre h
    rw [nameLength_encoded hword hpre hquote] at h
    obtain ⟨⟨kind', m⟩, hliteral, heq⟩ := map_eq_ok_iff.mp h
    cases heq
    exact ⟨m, hliteral, rfl⟩
  by_cases hprefixed : c :: word ∈ encodingPrefixes ∧ ∃ d ∈ after.head?, IsQuote d
  · obtain ⟨hpre, d, hd, hquote⟩ := hprefixed
    cases after with
    | nil => cases hd
    | cons e rest =>
      cases hd
      obtain ⟨m, hliteral, hn⟩ := hquoted d rest hquote hpre h
      exact .inr ⟨hpre, d, rest, m, hquote, rfl, hliteral, hn⟩
  · have hplain : c :: word ∈ encodingPrefixes → ∀ d ∈ after.head?, ¬ IsQuote d :=
      fun hpre d hd hquote => hprefixed ⟨hpre, d, hd, hquote⟩
    rw [nameLength_word hword hstop hplain] at h
    cases h
    exact .inl ⟨rfl, rfl, hstop, hplain⟩

theorem nameLength_take (h : nameLength c cs = .ok (kind, n)) :
    nameLength c (cs.take n) = .ok (kind, n) := by
  obtain ⟨word, after, rfl, hword, ⟨rfl, rfl, -, -⟩ | ⟨hpre, quote, rest, m, hquote, rfl, hliteral, rfl⟩⟩ :=
    nameLength_cases h
  · have halone := nameLength_word (c := c) (w := []) hword nofun nofun
    rw [List.append_nil] at halone
    rw [List.take_left, halone]
  · have hlength : word.length + 1 + m = word.length + (m + 1) := by omega
    rw [hlength, List.take_length_add_append, List.take_succ_cons,
      nameLength_encoded hword hpre hquote, literalLength_take hliteral, ← hlength]
    rfl

/-- A literal with an encoding is read the same before more text. -/
theorem nameLength_append_of_literal (h : nameLength c cs = .ok (kind, n)) (hkind : kind ≠ .identifier)
    (w : List Char) : nameLength c (cs ++ w) = .ok (kind, n) := by
  obtain ⟨word, after, rfl, hword, ⟨rfl, -⟩ | ⟨hpre, quote, rest, m, hquote, rfl, hliteral, rfl⟩⟩ :=
    nameLength_cases h
  · exact absurd rfl hkind
  · rw [List.append_assoc, List.cons_append, nameLength_encoded hword hpre hquote,
      literalLength_append_of_ok hliteral]
    rfl

theorem nameLength_append_of_stop (h : nameLength c cs = .ok (.identifier, cs.length))
    (hstop : ∀ d ∈ w.head?, isNameChar d = false)
    (hpre : c :: cs ∈ encodingPrefixes → ∀ d ∈ w.head?, ¬ IsQuote d) :
    nameLength c (cs ++ w) = .ok (.identifier, cs.length) := by
  obtain ⟨word, after, rfl, hword, ⟨-, hn, -⟩ | ⟨-, quote, rest, m, -, -, hliteral, -⟩⟩ :=
    nameLength_cases h
  · rw [List.length_append, Nat.add_eq_left, List.length_eq_zero_iff] at hn
    subst hn
    rw [List.append_nil] at hpre ⊢
    exact nameLength_word hword hstop hpre
  · rcases kind_of_literalLength hliteral with hkind | hkind <;> cases hkind

/-! ## Punctuators -/

theorem punctuators_sorted : punctuators.Pairwise fun p q => q.length ≤ p.length := by decide

/-- Every character that begins a punctuator is one by itself. -/
theorem singleton_of_mem_punctuators {u : List Char} (h : u ∈ punctuators) :
    ∃ d ∈ u.head?, [d] ∈ punctuators := by
  have hall : ∀ u ∈ punctuators, u.head?.any (fun d => decide ([d] ∈ punctuators)) = true := by
    decide
  obtain ⟨d, hd, hmem⟩ := Option.any_eq_true .. |>.mp (hall u h)
  exact ⟨d, hd, of_decide_eq_true hmem⟩

/-- Among texts with the longer ones first, the first prefix is the longest. -/
theorem find?_isPrefixOf {spellings : List (List Char)} {u v : List Char}
    (hsorted : spellings.Pairwise fun p q => q.length ≤ p.length) (hu : u ∈ spellings)
    (huv : u <+: v) (hmax : ∀ p ∈ spellings, u.length < p.length → ¬ p <+: v) :
    spellings.find? (·.isPrefixOf v) = some u := by
  induction spellings with
  | nil => cases hu
  | cons p spellings ih =>
    obtain ⟨hp, hsorted⟩ := List.pairwise_cons.mp hsorted
    rw [List.find?_cons]
    cases hpv : p.isPrefixOf v with
    | true =>
      have hpv := List.isPrefixOf_iff_prefix.mp hpv
      have hle : p.length ≤ u.length :=
        Nat.le_of_not_lt fun hlt => hmax p List.mem_cons_self hlt hpv
      have heq : p.length = u.length := by
        rcases List.mem_cons.mp hu with rfl | hu
        · rfl
        · exact Nat.le_antisymm hle (hp u hu)
      rw [(List.prefix_of_prefix_length_le hpv huv hle).eq_of_length heq]
    | false =>
      rcases List.mem_cons.mp hu with rfl | hu
      · rw [List.isPrefixOf_iff_prefix.mpr huv] at hpv
        cases hpv
      · exact ih hsorted hu fun q hq => hmax q (List.mem_cons_of_mem p hq)

theorem punctuatorLength_eq {u : List Char} (hu : c :: u ∈ punctuators) (hpre : u <+: cs)
    (hmax : ∀ p ∈ punctuators, u.length + 1 < p.length → ¬ p <+: c :: cs) :
    punctuatorLength c cs = (.punctuator, u.length) := by
  rw [punctuatorLength, find?_isPrefixOf punctuators_sorted hu (List.cons_prefix_cons.mpr ⟨rfl, hpre⟩)
    hmax]
  rfl

theorem punctuatorLength_other (h : [c] ∉ punctuators) : punctuatorLength c cs = (.other, 0) := by
  have hfind : punctuators.find? (·.isPrefixOf (c :: cs)) = none := by
    rw [List.find?_eq_none]
    intro u hu hpre
    obtain ⟨d, hd, hsingle⟩ := singleton_of_mem_punctuators hu
    cases u with
    | nil => cases hd
    | cons e u =>
      cases hd
      rw [(List.cons_prefix_cons.mp (List.isPrefixOf_iff_prefix.mp hpre)).1] at hsingle
      exact h hsingle
  rw [punctuatorLength, hfind]

/-- A character that begins no punctuator stands alone; else the longest punctuator is read. -/
theorem punctuatorLength_cases (c : Char) (cs : List Char) :
    ([c] ∉ punctuators ∧ punctuatorLength c cs = (.other, 0)) ∨
      ∃ u, c :: u ∈ punctuators ∧ u <+: cs ∧ punctuatorLength c cs = (.punctuator, u.length) ∧
        ∀ p ∈ punctuators, u.length + 1 < p.length → ¬ p <+: c :: cs := by
  by_cases hc : [c] ∈ punctuators
  · right
    cases hfind : punctuators.find? (·.isPrefixOf (c :: cs)) with
    | none =>
      have hsingle : [c].isPrefixOf (c :: cs) = true :=
        List.isPrefixOf_iff_prefix.mpr (List.cons_prefix_cons.mpr ⟨rfl, List.nil_prefix⟩)
      exact absurd hsingle (List.find?_eq_none.mp hfind [c] hc)
    | some p =>
      have hp := List.mem_of_find?_eq_some hfind
      obtain ⟨hpre, longer, rest, hsplit, hlonger⟩ := List.find?_eq_some_iff_append.mp hfind
      obtain ⟨d, hd, -⟩ := singleton_of_mem_punctuators hp
      cases p with
      | nil => cases hd
      | cons e u =>
        obtain ⟨rfl, hu⟩ := List.cons_prefix_cons.mp (List.isPrefixOf_iff_prefix.mp hpre)
        refine ⟨u, hp, hu, by rw [punctuatorLength, hfind]; rfl, fun q hq hlength hqcs => ?_⟩
        have hsorted := punctuators_sorted
        rw [hsplit] at hq hsorted
        rcases List.mem_append.mp hq with hq | hq
        · have hnot := hlonger q hq
          rw [List.isPrefixOf_iff_prefix.mpr hqcs] at hnot
          cases hnot
        · have hle : q.length ≤ (e :: u).length := by
            rcases List.mem_cons.mp hq with rfl | hq
            · exact Nat.le_refl _
            · exact List.rel_of_pairwise_cons (List.pairwise_append.mp hsorted).2.1 hq
          rw [List.length_cons] at hle
          omega
  · exact .inl ⟨hc, punctuatorLength_other hc⟩

theorem punctuatorLength_take (h : punctuatorLength c cs = (kind, n)) :
    punctuatorLength c (cs.take n) = (kind, n) := by
  obtain ⟨hc, hother⟩ | ⟨u, hu, hpre, hlength, hmax⟩ := punctuatorLength_cases c cs
  · rw [hother] at h
    cases h
    exact punctuatorLength_other hc
  · rw [hlength] at h
    cases h
    have htake : cs.take u.length = u := (List.prefix_iff_eq_take.mp hpre).symm
    rw [htake]
    refine punctuatorLength_eq hu (List.prefix_refl u) fun p hp hlt hpu => hmax p hp hlt ?_
    exact hpu.trans (List.cons_prefix_cons.mpr ⟨rfl, hpre⟩)

/-! ## All lexemes -/

theorem commentLength_take (h : commentLength cs = .ok n) : commentLength (cs.take n) = .ok n := by
  fun_induction commentLength cs generalizing n with
  | case1 => cases h
  | case2 cs =>
    cases h
    rw [List.take_succ_cons, List.take_succ_cons, commentLength]
  | case3 c cs hend ih =>
    obtain ⟨m, hm, rfl⟩ := map_eq_ok_iff.mp h
    rw [List.take_succ_cons, commentLength, ih hm]
    · rfl
    · intro after hc hafter
      have hhead : cs.head? = some '/' := head?_of_take (n := m) (by rw [hafter]; rfl)
      obtain ⟨after, rfl⟩ := List.head?_eq_some_iff.mp hhead
      exact hend after hc rfl

theorem commentLength_le {cs : List Char} {n : Nat} (h : commentLength cs = .ok n) :
    n ≤ cs.length := by
  fun_induction commentLength cs generalizing n with
  | case1 => cases h
  | case2 cs =>
    cases h
    exact Nat.le_add_left 2 _
  | case3 c cs hend ih =>
    obtain ⟨m, hm, rfl⟩ := map_eq_ok_iff.mp h
    exact Nat.succ_le_succ (ih hm)

/-- Whether a text begins with neither white space nor a comment nor a line end. -/
structure NoLayout (c : Char) (cs : List Char) : Prop where
  newline : c ≠ '\n'
  blank : isBlank c = false
  comment : c = '/' → ∀ d ∈ cs.head?, d ≠ '/' ∧ d ≠ '*'

/-- Whether a text begins with a number. -/
def startsNumber (c : Char) (cs : List Char) : Bool :=
  Text.isDigit c || (c = '.' && cs.head?.any Text.isDigit)

theorem NoLayout.first_eq (h : NoLayout c cs) :
    first c cs =
      if startsNumber c cs then .ok (.number, numberLength cs)
      else if isNameStart c then nameLength c cs
      else if c = '"' || c = '\'' then literalLength c cs
      else .ok (punctuatorLength c cs) := by
  have hline : ¬ (c = '/' && cs.head? = some '/') = true := by
    simp only [Bool.and_eq_true, decide_eq_true_eq]
    exact fun ⟨hc, hd⟩ => (h.comment hc '/' hd).1 rfl
  have hblock : ¬ (c = '/' && cs.head? = some '*') = true := by
    simp only [Bool.and_eq_true, decide_eq_true_eq]
    exact fun ⟨hc, hd⟩ => (h.comment hc '*' hd).2 rfl
  rw [first, if_neg h.newline, if_neg (Bool.eq_false_iff.mp h.blank), if_neg hline, if_neg hblock]
  rfl

theorem NoLayout.kind_of_first (h : NoLayout c cs) (hfirst : first c cs = .ok (kind, n)) :
    kind.isLayout = false := by
  rw [h.first_eq] at hfirst
  split at hfirst
  · cases hfirst
    rfl
  split at hfirst
  · rcases kind_of_nameLength hfirst with rfl | rfl | rfl <;> rfl
  split at hfirst
  · rcases kind_of_literalLength hfirst with rfl | rfl <;> rfl
  · rcases kind_of_punctuatorLength (Except.ok.inj hfirst) with rfl | rfl <;> rfl

theorem NoLayout.of_first (h : first c cs = .ok (kind, n)) (hkind : kind.isLayout = false) :
    NoLayout c cs := by
  unfold first at h
  split at h
  · cases h
    cases hkind
  rename_i hnewline
  split at h
  · cases h
    cases hkind
  rename_i hblank
  split at h
  · cases h
    cases hkind
  rename_i hline
  split at h
  · obtain ⟨m, -, heq⟩ := map_eq_ok_iff.mp h
    cases heq
    cases hkind
  rename_i hblock
  simp only [Bool.and_eq_true, decide_eq_true_eq] at hline hblock
  refine ⟨hnewline, Bool.eq_false_iff.mpr hblank, fun hc d hd => ⟨?_, ?_⟩⟩
  · rintro rfl
    exact hline ⟨hc, hd⟩
  · rintro rfl
    exact hblock ⟨hc, hd⟩

/-- What is no layout is a number, a word, a literal or a punctuator, tried in this order. -/
theorem first_cases (h : first c cs = .ok (kind, n)) (hkind : kind.isLayout = false) :
    (startsNumber c cs = true ∧ kind = .number ∧ n = numberLength cs) ∨
      startsNumber c cs = false ∧
        ((isNameStart c = true ∧ nameLength c cs = .ok (kind, n)) ∨
          isNameStart c = false ∧
            ((IsQuote c ∧ literalLength c cs = .ok (kind, n)) ∨
              ¬ IsQuote c ∧ punctuatorLength c cs = (kind, n))) := by
  rw [(NoLayout.of_first h hkind).first_eq] at h
  split at h
  · rename_i hnumber
    cases h
    exact .inl ⟨hnumber, rfl, rfl⟩
  rename_i hnumber
  refine .inr ⟨Bool.eq_false_iff.mpr hnumber, ?_⟩
  split at h
  · rename_i hname
    exact .inl ⟨hname, h⟩
  rename_i hname
  refine .inr ⟨Bool.eq_false_iff.mpr hname, ?_⟩
  split at h
  · rename_i hquote
    exact .inl ⟨by simpa [IsQuote] using hquote, h⟩
  · rename_i hquote
    exact .inr ⟨by simpa [IsQuote] using hquote, Except.ok.inj h⟩

/-- A token ends within its text. -/
theorem first_le (h : first c cs = .ok (kind, n)) (hkind : kind.isLayout = false) :
    n ≤ cs.length := by
  obtain ⟨-, -, rfl⟩ | ⟨-, ⟨-, h⟩ | ⟨-, ⟨-, h⟩ | ⟨-, h⟩⟩⟩ := first_cases h hkind
  · exact numberLength_le cs
  · obtain ⟨word, after, rfl, -, ⟨-, rfl, -⟩ | ⟨-, quote, rest, m, -, rfl, hliteral, rfl⟩⟩ :=
      nameLength_cases h
    · rw [List.length_append]
      exact Nat.le_add_right _ _
    · have hle := bodyLength_le (bodyLength_of_literalLength hliteral).1
      rw [List.length_append, List.length_cons]
      omega
  · exact bodyLength_le (bodyLength_of_literalLength h).1
  · obtain ⟨-, hother⟩ | ⟨u, -, hpre, hlength, -⟩ := punctuatorLength_cases c cs
    · rw [hother] at h
      cases h
      exact Nat.zero_le _
    · rw [hlength] at h
      cases h
      exact hpre.length_le

theorem startsNumber_of_first (h : first c cs = .ok (.number, n)) :
    startsNumber c cs = true ∧ n = numberLength cs := by
  obtain ⟨hnumber, -, hn⟩ | ⟨-, ⟨-, h⟩ | ⟨-, ⟨-, h⟩ | ⟨-, h⟩⟩⟩ := first_cases h rfl
  · exact ⟨hnumber, hn⟩
  · rcases kind_of_nameLength h with hkind | hkind | hkind <;> cases hkind
  · rcases kind_of_literalLength h with hkind | hkind <;> cases hkind
  · rcases kind_of_punctuatorLength h with hkind | hkind <;> cases hkind

theorem nameLength_of_first (h : first c cs = .ok (.identifier, n)) :
    nameLength c cs = .ok (.identifier, n) := by
  obtain ⟨-, hkind, -⟩ | ⟨-, ⟨-, h⟩ | ⟨-, ⟨-, h⟩ | ⟨-, h⟩⟩⟩ := first_cases h rfl
  · cases hkind
  · exact h
  · rcases kind_of_literalLength h with hkind | hkind <;> cases hkind
  · rcases kind_of_punctuatorLength h with hkind | hkind <;> cases hkind

/-- A word goes on as long as it can. -/
theorem first_word_stop (h : first c cs = .ok (kind, n)) (hkind : kind = .identifier ∨ kind = .number) :
    ∀ d ∈ (cs.drop n).head?, isNameChar d = false := by
  rcases hkind with rfl | rfl
  · obtain ⟨word, after, rfl, -, ⟨-, rfl, hstop, -⟩ | ⟨-, quote, rest, m, -, -, hliteral, -⟩⟩ :=
      nameLength_cases (nameLength_of_first h)
    · rw [List.drop_left]
      exact hstop
    · rcases kind_of_literalLength hliteral with hkind | hkind <;> cases hkind
  · obtain ⟨-, rfl⟩ := startsNumber_of_first h
    exact fun d hd => (numberLength_stop cs d hd).1

theorem startsNumber_of_take (h : startsNumber c (cs.take n) = true) : startsNumber c cs = true := by
  simp only [startsNumber, Bool.or_eq_true, Bool.and_eq_true, decide_eq_true_eq,
    Option.any_eq_true] at h ⊢
  exact h.imp_right fun ⟨hc, d, hd, hdigit⟩ => ⟨hc, d, head?_of_take hd, hdigit⟩

/-- Layout is a line end, a run of blanks or a comment. -/
theorem first_layout_cases (h : first c cs = .ok (kind, n)) (hkind : kind.isLayout = true) :
    (c = '\n' ∧ kind = .newline ∧ n = 0) ∨
      (c ≠ '\n' ∧ isBlank c = true ∧ kind = .whitespace ∧ n = spanLength isBlank cs) ∨
      c = '/' ∧ kind = .comment ∧ ∃ d rest m, cs = d :: rest ∧ n = m + 1 ∧
        (d = '/' ∧ m = spanLength (· ≠ '\n') rest ∨ d = '*' ∧ commentLength rest = .ok m) := by
  by_cases hnewline : c = '\n'
  · rw [first, if_pos hnewline] at h
    cases h
    exact .inl ⟨hnewline, rfl, rfl⟩
  by_cases hblank : isBlank c = true
  · rw [first, if_neg hnewline, if_pos hblank] at h
    cases h
    exact .inr (.inl ⟨hnewline, hblank, rfl, rfl⟩)
  by_cases hplain : NoLayout c cs
  · have := hplain.kind_of_first h
    rw [hkind] at this
    cases this
  obtain ⟨rfl, d, hd, hmark⟩ : c = '/' ∧ ∃ d, cs.head? = some d ∧ (d = '/' ∨ d = '*') := by
    refine Classical.byContradiction fun hnot => hplain ⟨hnewline, Bool.eq_false_iff.mpr hblank, ?_⟩
    exact fun hc d hd => ⟨fun heq => hnot ⟨hc, d, hd, .inl heq⟩, fun heq => hnot ⟨hc, d, hd, .inr heq⟩⟩
  obtain ⟨rest, rfl⟩ := List.head?_eq_some_iff.mp hd
  rcases hmark with rfl | rfl
  · cases h
    exact .inr (.inr ⟨rfl, rfl, '/', rest, _, rfl, rfl, .inl ⟨rfl, rfl⟩⟩)
  · obtain ⟨m, hm, heq⟩ := map_eq_ok_iff.mp h
    cases heq
    exact .inr (.inr ⟨rfl, rfl, '*', rest, m, rfl, rfl, .inr ⟨rfl, hm⟩⟩)

theorem first_line (cs : List Char) :
    first '/' ('/' :: cs) = .ok (.comment, spanLength (· ≠ '\n') cs + 1) := rfl

theorem first_block (cs : List Char) :
    first '/' ('*' :: cs) = (commentLength cs).map fun n => (.comment, n + 1) := rfl

theorem first_take_layout (h : first c cs = .ok (kind, n)) (hkind : kind.isLayout = true) :
    first c (cs.take n) = .ok (kind, n) := by
  obtain ⟨rfl, rfl, rfl⟩ | ⟨hnewline, hblank, rfl, rfl⟩ |
    ⟨rfl, rfl, d, rest, m, rfl, rfl, ⟨rfl, rfl⟩ | ⟨rfl, hm⟩⟩ := first_layout_cases h hkind
  · rfl
  · rw [first, if_neg hnewline, if_pos hblank, spanLength_take_of_le (Nat.le_refl _)]
  · rw [List.take_succ_cons, first_line, spanLength_take_of_le (Nat.le_refl _)]
  · rw [List.take_succ_cons, first_block, commentLength_take hm]
    rfl

/-- What is read first of a text is read of it alone, too. The one exception is a point before a
digit that goes on no number. -/
theorem first_take (h : first c cs = .ok (kind, n)) (hpoint : kind = .number → c = '.' → n ≠ 0) :
    first c (cs.take n) = .ok (kind, n) := by
  cases hkind : kind.isLayout with
  | true => exact first_take_layout h hkind
  | false =>
    have hplain := NoLayout.of_first h hkind
    have htake : NoLayout c (cs.take n) :=
      ⟨hplain.newline, hplain.blank, fun hc d hd => hplain.comment hc d (head?_of_take hd)⟩
    rw [hplain.first_eq] at h
    rw [htake.first_eq]
    by_cases hnumber : startsNumber c cs = true
    · rw [if_pos hnumber] at h
      cases h
      have htaken : startsNumber c (cs.take (numberLength cs)) = true := by
        cases hn : numberLength cs with
        | zero =>
          simp only [startsNumber, Bool.or_eq_true, Bool.and_eq_true, decide_eq_true_eq] at hnumber ⊢
          exact .inl (hnumber.resolve_right fun h => hpoint rfl h.1 hn)
        | succ n =>
          cases cs with
          | nil => exact hnumber
          | cons d cs => exact hnumber
      rw [if_pos htaken, numberLength_take]
    have htaken : ¬ startsNumber c (cs.take n) = true := mt startsNumber_of_take hnumber
    rw [if_neg hnumber] at h
    rw [if_neg htaken]
    by_cases hname : isNameStart c = true
    · rw [if_pos hname] at h
      rw [if_pos hname, nameLength_take h]
    rw [if_neg hname] at h
    rw [if_neg hname]
    by_cases hquote : (c = '"' || c = '\'') = true
    · rw [if_pos hquote] at h
      rw [if_pos hquote, literalLength_take h]
    · rw [if_neg hquote] at h
      rw [if_neg hquote, punctuatorLength_take (Except.ok.inj h)]

/-- Whether text does not go on with the token that `u` reads as. -/
def Stops (kind : Kind) (u w : List Char) : Prop :=
  match kind with
  | .identifier =>
    (∀ d ∈ w.head?, isNameChar d = false) ∧ (u ∈ encodingPrefixes → ∀ d ∈ w.head?, ¬ IsQuote d)
  | .number =>
    (∀ d ∈ w.head?, isNameChar d = false ∧ d ≠ '.') ∧
      ∀ e ∈ u.getLast?, isExponentMark e = true → ∀ d ∈ w.head?, isSign d = false
  | .punctuator =>
    (u = ['/'] → ∀ d ∈ w.head?, d ≠ '/' ∧ d ≠ '*') ∧
      (u = ['.'] → ∀ d ∈ w.head?, Text.isDigit d = false) ∧
      ∀ p ∈ punctuators, u.length < p.length → ¬ p <+: u ++ w
  | _ => True

/-- A text that reads as one token is read first of a longer text that does not go on with it. -/
theorem first_append_of_stops (h : first c cs = .ok (kind, cs.length)) (hkind : kind.isLayout = false)
    (hstops : Stops kind (c :: cs) w) : first c (cs ++ w) = .ok (kind, cs.length) := by
  have hplain := NoLayout.of_first h hkind
  have hmore : NoLayout c (cs ++ w) := by
    refine ⟨hplain.newline, hplain.blank, fun hc d hd => ?_⟩
    cases cs with
    | nil =>
      subst hc
      obtain rfl : Kind.punctuator = kind := congrArg Prod.fst (Except.ok.inj h)
      exact hstops.1 rfl d hd
    | cons e cs => exact hplain.comment hc d hd
  have hstarts : startsNumber c (cs ++ w) = startsNumber c cs := by
    cases cs with
    | nil =>
      by_cases hc : c = '.'
      · subst hc
        obtain rfl : Kind.punctuator = kind := congrArg Prod.fst (Except.ok.inj h)
        have hdigit : w.head?.any Text.isDigit = false := by
          simp only [Option.any_eq_false]
          exact hstops.2.1 rfl
        rw [startsNumber, List.nil_append, hdigit]
        rfl
      · simp only [startsNumber, hc, decide_false, Bool.false_and]
    | cons e cs => rfl
  rw [hplain.first_eq] at h
  rw [hmore.first_eq, hstarts]
  by_cases hnumber : startsNumber c cs = true
  · rw [if_pos hnumber] at h ⊢
    have hlength := congrArg Prod.snd (Except.ok.inj h)
    obtain rfl : Kind.number = kind := congrArg Prod.fst (Except.ok.inj h)
    rw [numberLength_append_of_stop hlength hstops.1 fun e he => hstops.2 e ?_]
    rw [List.getLast?_cons, Option.mem_def.mp he]
    rfl
  rw [if_neg hnumber] at h ⊢
  by_cases hname : isNameStart c = true
  · rw [if_pos hname] at h ⊢
    by_cases hidentifier : kind = .identifier
    · subst hidentifier
      exact nameLength_append_of_stop h hstops.1 hstops.2
    · exact nameLength_append_of_literal h hidentifier w
  rw [if_neg hname] at h ⊢
  by_cases hquote : (c = '"' || c = '\'') = true
  · rw [if_pos hquote] at h ⊢
    exact literalLength_append_of_ok h w
  rw [if_neg hquote] at h ⊢
  have h := Except.ok.inj h
  obtain ⟨hc, hother⟩ | ⟨u, hu, hpre, hlength, -⟩ := punctuatorLength_cases c cs
  · rw [hother] at h
    rw [punctuatorLength_other hc, h]
  · rw [hlength] at h
    have hn := congrArg Prod.snd h
    obtain rfl : Kind.punctuator = kind := congrArg Prod.fst h
    obtain rfl := hpre.eq_of_length hn
    rw [punctuatorLength_eq hu (List.prefix_append u w) hstops.2.2]

/-! ## Classes of characters -/

theorem isNameStart_of_mem_encodingPrefixes :
    ∀ word ∈ encodingPrefixes, ∀ c ∈ word.head?, isNameStart c = true := by
  have hall : ∀ word ∈ encodingPrefixes, word.head?.all isNameStart = true := by decide
  exact fun word hword c hc => Option.all_eq_true .. |>.mp (hall word hword) c hc

theorem isNameChar_of_mem_encodingPrefixes :
    ∀ word ∈ encodingPrefixes, ∀ d ∈ word, isNameChar d = true := by
  have hall : ∀ word ∈ encodingPrefixes, word.all isNameChar = true := by decide
  exact fun word hword => List.all_eq_true.mp (hall word hword)

/-- The characters of punctuators are punctuators, and none of them is part of a word. -/
theorem class_of_mem_punctuators : ∀ p ∈ punctuators, ∀ c ∈ p,
    [c] ∈ punctuators ∧ isNameChar c = false ∧ Text.isDigit c = false := by
  have hall : ∀ p ∈ punctuators, p.all (fun c => decide ([c] ∈ punctuators ∧
      isNameChar c = false ∧ Text.isDigit c = false)) = true := by decide
  exact fun p hp c hc => of_decide_eq_true (List.all_eq_true.mp (hall p hp) c hc)

theorem isDigit_of_isDigit (h : c.isDigit = true) : Text.isDigit c = true := by
  simp only [Char.isDigit, ge_iff_le, Bool.and_eq_true, decide_eq_true_eq] at h
  have hlt : c.toNat < 128 := Nat.lt_of_le_of_lt (UInt32.le_iff_toNat_le.mp h.2) (by decide)
  rw [Text.isDigit, if_pos hlt, Char.isDigit, Bool.and_eq_true, decide_eq_true_eq, decide_eq_true_eq]
  exact h

theorem isDigit_of_isNameStart (h : isNameStart c = true) : Text.isDigit c = false := by
  simp only [isNameStart, Bool.or_eq_true, beq_iff_eq] at h
  rcases h with (h | rfl) | rfl
  · have hbounds : 58 ≤ c.toNat ∧ c.toNat < 128 := by
      have h : (decide (c.val ≥ 'A'.val ∧ c.val ≤ 'Z'.val) ||
          decide (c.val ≥ 'a'.val) && decide (c.val ≤ 'z'.val)) = true := h
      simp only [ge_iff_le, Bool.or_eq_true, Bool.and_eq_true, decide_eq_true_eq,
        UInt32.le_iff_toNat_le] at h
      rcases h with h | h
      · exact ⟨Nat.le_trans (by decide) h.1, Nat.lt_of_le_of_lt h.2 (by decide)⟩
      · exact ⟨Nat.le_trans (by decide) h.1, Nat.lt_of_le_of_lt h.2 (by decide)⟩
    rw [Text.isDigit, if_pos hbounds.2, Char.isDigit, Bool.and_eq_false_iff]
    refine .inr (decide_eq_false fun hle => ?_)
    exact absurd (Nat.le_trans hbounds.1 (UInt32.le_iff_toNat_le.mp hle)) (by decide)
  · decide
  · decide

theorem space_cases (h : isBlank c = true ∨ c = '\n') :
    [c] ∉ punctuators ∧ isNameChar c = false ∧ Text.isDigit c = false ∧ ¬ IsQuote c := by
  have hcases : c = ' ' ∨ c = '\t' ∨ c = '\x0c' ∨ c = '\x0b' ∨ c = '\r' ∨ c = '\n' := by
    simpa [isBlank, or_assoc] using h
  rcases hcases with rfl | rfl | rfl | rfl | rfl | rfl <;> decide

theorem isQuote_cases (h : IsQuote c) :
    [c] ∉ punctuators ∧ isNameChar c = false ∧ Text.isDigit c = false := by
  rcases h with rfl | rfl <;> decide

theorem noLayout_of_class
    (h : isNameStart c = true ∨ Text.isDigit c = true ∨ IsQuote c ∨ c = '.') : NoLayout c cs where
  newline := by
    rintro rfl
    exact absurd h (by decide)
  blank := by
    refine Bool.eq_false_iff.mpr fun hblank => ?_
    obtain ⟨hpunctuator, hname, hdigit, hquote⟩ := space_cases (.inl hblank)
    rcases h with h | h | h | rfl
    · rw [isNameChar, h] at hname
      cases hname
    · rw [hdigit] at h
      cases h
    · exact hquote h
    · exact hpunctuator (by decide)
  comment := by
    rintro rfl
    exact absurd h (by decide)

end Lexeme

end CPreprocessor
