import CPreprocessor.Lexeme
import CPreprocessor.Proofs.Except

/-!
# Lexemes do not look past a line end

No lexeme but a block comment reads on after a newline, so what a text is cut into up to a newline
that stands alone does not depend on what follows it (`lexemes_append`).
-/

namespace CPreprocessor

namespace Lexeme

variable {p : Char → Bool} {c quote : Char} {cs : List Char} {n : Nat}

theorem takeWhile_append_newline (hp : p '\n' = false) (h : '\n' ∈ cs) (rest : List Char) :
    (cs ++ rest).takeWhile p = cs.takeWhile p := by
  induction cs with
  | nil => cases h
  | cons c cs ih =>
    rw [List.cons_append, List.takeWhile_cons, List.takeWhile_cons]
    split
    · rename_i hc
      rcases List.mem_cons.mp h with rfl | h
      · rw [hp] at hc
        cases hc
      · rw [ih h]
    · rfl

theorem spanLength_append (hp : p '\n' = false) (h : '\n' ∈ cs) (rest : List Char) :
    spanLength p (cs ++ rest) = spanLength p cs := by
  rw [spanLength, takeWhile_append_newline hp h, spanLength]

theorem spanLength_cons (p : Char → Bool) (c : Char) (cs : List Char) :
    spanLength p (c :: cs) = if p c then spanLength p cs + 1 else 0 := by
  rw [spanLength, List.takeWhile_cons]
  split <;> rfl

theorem spanLength_take (p : Char → Bool) (n : Nat) (cs : List Char) :
    spanLength p (cs.take n) = min n (spanLength p cs) := by
  induction cs generalizing n with
  | nil => simp [spanLength]
  | cons c cs ih =>
    cases n with
    | zero => simp [spanLength]
    | succ n =>
      have h := ih n
      unfold spanLength at h ⊢
      rw [List.take_succ_cons, List.takeWhile_cons, List.takeWhile_cons]
      split
      · rw [List.length_cons, List.length_cons, h]
        omega
      · simp

theorem spanLength_take_append (hp : p '\n' = false) (h : '\n' ∈ cs) (n : Nat)
    (rest : List Char) : spanLength p ((cs ++ rest).take n) = spanLength p (cs.take n) := by
  rw [spanLength_take, spanLength_append hp h, spanLength_take]

theorem spanLength_drop (h : n ≤ spanLength p cs) :
    n + spanLength p (cs.drop n) = spanLength p cs := by
  induction n generalizing cs with
  | zero => exact Nat.zero_add _
  | succ n ih =>
    cases cs with
    | nil => cases h
    | cons c cs =>
      rw [spanLength_cons] at h ⊢
      split at h
      · rename_i hc
        rw [if_pos hc, List.drop_succ_cons, Nat.add_right_comm, ih (Nat.le_of_succ_le_succ h)]
      · cases h

theorem spanLength_mono {q : Char → Bool} (hpq : ∀ c, p c = true → q c = true) (cs : List Char) :
    spanLength p cs ≤ spanLength q cs := by
  induction cs with
  | nil => exact Nat.le_refl _
  | cons c cs ih =>
    rw [spanLength_cons, spanLength_cons]
    by_cases hc : p c = true
    · rw [if_pos hc, if_pos (hpq c hc)]
      exact Nat.succ_le_succ ih
    · rw [if_neg hc]
      exact Nat.zero_le _

/-- A run that ends at a newline goes no further than the rest of the line. -/
theorem spanLength_le_line (hp : p '\n' = false) (cs : List Char) :
    spanLength p cs ≤ spanLength (· ≠ '\n') cs := by
  refine spanLength_mono (fun c hc => ?_) cs
  rw [decide_eq_true_iff]
  rintro rfl
  rw [hp] at hc
  cases hc

/-- A run of characters other than the newline ends before the newline. -/
theorem mem_drop_spanLength (hp : p '\n' = false) (h : '\n' ∈ cs) :
    '\n' ∈ cs.drop (spanLength p cs) := by
  induction cs with
  | nil => cases h
  | cons c cs ih =>
    rw [spanLength, List.takeWhile_cons]
    split
    · rename_i hc
      rcases List.mem_cons.mp h with rfl | h
      · rw [hp] at hc
        cases hc
      · exact ih h
    · exact h

theorem mem_drop_of_le {m n : Nat} (hle : m ≤ n) (h : '\n' ∈ cs.drop n) : '\n' ∈ cs.drop m := by
  have hdrop : cs.drop n = (cs.drop m).drop (n - m) := by
    rw [List.drop_drop, Nat.add_sub_cancel' hle]
  rw [hdrop] at h
  exact List.mem_of_mem_drop h

theorem lt_length_of_mem_drop {n : Nat} (h : '\n' ∈ cs.drop n) : n < cs.length := by
  refine Nat.lt_of_not_le fun hle => ?_
  rw [List.drop_eq_nil_of_le hle] at h
  cases h

theorem drop_append_of_mem {n : Nat} (h : '\n' ∈ cs.drop n) (rest : List Char) :
    (cs ++ rest).drop n = cs.drop n ++ rest :=
  List.drop_append_of_le_length (Nat.le_of_lt (lt_length_of_mem_drop h))

theorem take_append_of_mem {n : Nat} (h : '\n' ∈ cs.drop n) (rest : List Char) :
    (cs ++ rest).take n = cs.take n :=
  List.take_append_of_le_length (Nat.le_of_lt (lt_length_of_mem_drop h))

theorem mem_of_ne_newline (hc : c ≠ '\n') (h : '\n' ∈ c :: cs) : '\n' ∈ cs :=
  (List.mem_cons.mp h).resolve_left (Ne.symm hc)

theorem head?_append_of_mem (h : '\n' ∈ cs) (rest : List Char) : (cs ++ rest).head? = cs.head? := by
  cases cs with
  | nil => cases h
  | cons c cs => rfl

/-! ## Each kind of lexeme -/

theorem numberLength_append (h : '\n' ∈ cs) (rest : List Char) :
    numberLength (cs ++ rest) = numberLength cs := by
  have hnewline : ∀ cs, numberLength ('\n' :: cs) = 0 := by
    intro cs
    cases cs with
    | nil => rfl
    | cons d cs => simp [numberLength, isNameChar, isNameStart, isExponentMark]
  fun_induction numberLength cs with
  | case1 => cases h
  | case2 c =>
    obtain rfl : '\n' = c := by simpa using h
    simp_all [isNameChar, isNameStart]
  | case3 c =>
    obtain rfl : '\n' = c := by simpa using h
    exact hnewline rest
  | case4 c d cs hexponent ih =>
    have hcs : '\n' ∈ cs := by
      simp only [List.mem_cons] at h
      rcases h with rfl | rfl | h
      · simp [isExponentMark] at hexponent
      · simp [isSign] at hexponent
      · exact h
    rw [List.cons_append, List.cons_append, numberLength, if_pos hexponent, ih hcs]
  | case5 c d cs hexponent hname ih =>
    have hcs : '\n' ∈ d :: cs := by
      rcases List.mem_cons.mp h with rfl | h
      · simp [isNameChar, isNameStart] at hname
      · exact h
    have ih := ih hcs
    rw [List.cons_append] at ih
    rw [List.cons_append, List.cons_append, numberLength, if_neg hexponent, if_pos hname, ih]
  | case6 c d cs hexponent hname =>
    rw [List.cons_append, List.cons_append, numberLength, if_neg hexponent, if_neg hname]

theorem commentLength_append {n : Nat} (h : commentLength cs = .ok n) (rest : List Char) :
    commentLength (cs ++ rest) = .ok n := by
  fun_induction commentLength cs generalizing n with
  | case1 => cases h
  | case2 cs =>
    rw [← h, List.cons_append, List.cons_append, commentLength]
  | case3 c cs hend ih =>
    cases hcs : commentLength cs with
    | error fault =>
      rw [hcs] at h
      cases h
    | ok m =>
      rw [hcs] at h
      have hrest : commentLength (c :: (cs ++ rest)) = (commentLength (cs ++ rest)).map (· + 1) := by
        rw [commentLength]
        intro after hc hafter
        cases cs with
        | nil => cases hcs
        | cons d ds =>
          rw [List.cons_append, List.cons.injEq] at hafter
          exact hend ds hc (by rw [hafter.1])
      rw [List.cons_append, hrest, ih hcs]
      exact h

theorem commentLength_error {fault : LexFault} (h : commentLength cs = .error fault) :
    fault = .unterminatedComment := by
  fun_induction commentLength cs with
  | case1 =>
    cases h
    rfl
  | case2 => cases h
  | case3 c cs hend ih => exact ih (map_eq_error_iff.mp h)

theorem universalLength_append (h : '\n' ∈ cs) (width : Nat) (fault : LexFault)
    (rest : List Char) : universalLength width fault (cs ++ rest) = universalLength width fault cs := by
  rw [universalLength, spanLength_take_append (by decide) h, universalLength]

theorem escapeLength_append (h : '\n' ∈ cs) (rest : List Char) :
    escapeLength (cs ++ rest) = escapeLength cs := by
  cases cs with
  | nil => cases h
  | cons c cs =>
    by_cases hc : c = '\n'
    · subst hc
      rfl
    · have h := mem_of_ne_newline hc h
      simp only [List.cons_append, escapeLength]
      rw [spanLength_take_append (by decide) h, spanLength_append (by decide) h,
        universalLength_append h, universalLength_append h]

/-- An escape holds no newline. -/
theorem escapeLength_le_line {n : Nat} (h : escapeLength cs = .ok n) :
    n ≤ spanLength (· ≠ '\n') cs := by
  cases cs with
  | nil => cases h
  | cons c cs =>
    have hc : c ≠ '\n' := by
      rintro rfl
      cases h
    have hline : spanLength (· ≠ '\n') (c :: cs) = spanLength (· ≠ '\n') cs + 1 := by
      rw [spanLength_cons, if_pos (decide_eq_true hc)]
    have hoctal := spanLength_le_line (p := isOctalDigit) (by decide) cs
    have hhex := spanLength_le_line (p := isHexDigit) (by decide) cs
    have huniversal : ∀ width fault, (universalLength width fault cs).map (· + 1) = .ok n →
        n ≤ spanLength (· ≠ '\n') cs + 1 := by
      intro width fault hwidth
      obtain ⟨m, hm, rfl⟩ := map_eq_ok_iff.mp hwidth
      rw [universalLength, spanLength_take] at hm
      split at hm
      · cases hm
        omega
      · cases hm
    rw [hline]
    simp only [escapeLength, spanLength_take] at h
    split at h
    · cases h
      omega
    split at h
    · cases h
      omega
    split at h
    · split at h
      · cases h
      · cases h
        omega
    split at h
    · exact huniversal _ _ h
    split at h
    · exact huniversal _ _ h
    · cases h

/-- The body of a literal holds no newline. -/
theorem bodyLength_le_line {n : Nat} (h : bodyLength quote cs = .ok n) :
    n ≤ spanLength (· ≠ '\n') cs := by
  fun_induction bodyLength quote cs generalizing n with
  | case1 => cases h
  | case2 => cases h
  | case3 cs hnewline =>
    cases h
    rw [spanLength_cons, if_pos (decide_eq_true hnewline)]
    exact Nat.le_add_left 1 _
  | case4 => cases h
  | case5 cs k hk hnewline hquote ih =>
    obtain ⟨m, hm, rfl⟩ := map_eq_ok_iff.mp h
    have hdrop := spanLength_drop (escapeLength_le_line hk)
    have hle := ih hm
    rw [spanLength_cons, if_pos (decide_eq_true hnewline)]
    omega
  | case6 c cs hnewline hquote hescape ih =>
    obtain ⟨m, hm, rfl⟩ := map_eq_ok_iff.mp h
    rw [spanLength_cons, if_pos (decide_eq_true hnewline)]
    exact Nat.succ_le_succ (ih hm)

theorem bodyLength_newline (quote : Char) (cs : List Char) :
    bodyLength quote ('\n' :: cs) = .error (unterminated quote) := by
  rw [bodyLength, if_pos rfl]

theorem bodyLength_mark (hquote : quote ≠ '\n') (cs : List Char) :
    bodyLength quote (quote :: cs) = .ok 1 := by
  rw [bodyLength, if_neg hquote, if_pos rfl]

theorem bodyLength_escape (hquote : '\\' ≠ quote) (hn : escapeLength cs = .ok n) :
    bodyLength quote ('\\' :: cs) = (bodyLength quote (cs.drop n)).map (· + (n + 1)) := by
  rw [bodyLength, if_neg (by decide), if_neg hquote, if_pos rfl, hn]

theorem bodyLength_escape_error {fault : LexFault} (hquote : '\\' ≠ quote)
    (hfault : escapeLength cs = .error fault) : bodyLength quote ('\\' :: cs) = .error fault := by
  rw [bodyLength, if_neg (by decide), if_neg hquote, if_pos rfl, hfault]

theorem bodyLength_plain (hnewline : c ≠ '\n') (hquote : c ≠ quote) (hescape : c ≠ '\\')
    (cs : List Char) : bodyLength quote (c :: cs) = (bodyLength quote cs).map (· + 1) := by
  rw [bodyLength, if_neg hnewline, if_neg hquote, if_neg hescape]

theorem bodyLength_append (h : '\n' ∈ cs) (rest : List Char) :
    bodyLength quote (cs ++ rest) = bodyLength quote cs := by
  fun_induction bodyLength quote cs with
  | case1 => cases h
  | case2 cs => exact bodyLength_newline quote (cs ++ rest)
  | case3 cs hquote => exact bodyLength_mark hquote (cs ++ rest)
  | case4 cs fault herror hnewline hquote =>
    have herror' := escapeLength_append (mem_of_ne_newline (by decide) h) rest
    exact bodyLength_escape_error hquote (herror'.trans herror)
  | case5 cs n hn hnewline hquote ih =>
    have h := mem_of_ne_newline (by decide) h
    have hdrop := mem_drop_of_le (escapeLength_le_line hn) (mem_drop_spanLength (by decide) h)
    rw [List.cons_append, bodyLength_escape hquote ((escapeLength_append h rest).trans hn),
      drop_append_of_mem hdrop, ih hdrop]
  | case6 c cs hnewline hquote hescape ih =>
    rw [List.cons_append, bodyLength_plain hnewline hquote hescape,
      ih (mem_of_ne_newline hnewline h)]

theorem literalLength_append (h : '\n' ∈ cs) (rest : List Char) :
    literalLength quote (cs ++ rest) = literalLength quote cs := by
  rw [literalLength, bodyLength_append h, literalLength]

theorem nameLength_append (h : '\n' ∈ cs) (rest : List Char) :
    nameLength c (cs ++ rest) = nameLength c cs := by
  have hdrop := mem_drop_spanLength (p := isNameChar) (by decide) h
  simp only [nameLength, spanLength_append (p := isNameChar) (by decide) h,
    take_append_of_mem hdrop, drop_append_of_mem hdrop]
  generalize cs.drop (spanLength isNameChar cs) = after at hdrop
  cases after with
  | nil => cases hdrop
  | cons d after =>
    rw [List.cons_append]
    by_cases hstring : d = '"'
    · subst hstring
      simp only
      rw [literalLength_append (mem_of_ne_newline (by decide) hdrop)]
    by_cases hcharacter : d = '\''
    · subst hcharacter
      simp only
      rw [literalLength_append (mem_of_ne_newline (by decide) hdrop)]
    congr 1
    split
    · rename_i heq
      exact absurd (List.cons.inj heq).1 hstring
    · rename_i heq
      exact absurd (List.cons.inj heq).1 hcharacter
    · split
      · rename_i heq
        exact absurd (List.cons.inj heq).1 hstring
      · rename_i heq
        exact absurd (List.cons.inj heq).1 hcharacter
      · rfl

theorem isPrefixOf_append_newline {spelling : List Char} (hspelling : '\n' ∉ spelling)
    (h : '\n' ∈ cs) (rest : List Char) :
    spelling.isPrefixOf (cs ++ rest) = spelling.isPrefixOf cs := by
  induction spelling generalizing cs with
  | nil => rfl
  | cons d spelling ih =>
    cases cs with
    | nil => cases h
    | cons c cs =>
      rw [List.cons_append, List.isPrefixOf_cons_cons, List.isPrefixOf_cons_cons]
      by_cases hd : d = c
      · subst hd
        rw [ih (fun h => hspelling (List.mem_cons_of_mem _ h))
          (mem_of_ne_newline (fun hd => hspelling (by rw [hd]; exact List.mem_cons_self)) h)]
      · have hd : (d == c) = false := by simpa using hd
        rw [hd, Bool.false_and, Bool.false_and]

theorem punctuatorLength_append (h : '\n' ∈ cs) (rest : List Char) :
    punctuatorLength c (cs ++ rest) = punctuatorLength c cs := by
  have hfind : ∀ spellings : List (List Char), (∀ spelling ∈ spellings, '\n' ∉ spelling) →
      spellings.find? (·.isPrefixOf (c :: (cs ++ rest))) =
        spellings.find? (·.isPrefixOf (c :: cs)) := by
    intro spellings hspellings
    induction spellings with
    | nil => rfl
    | cons spelling spellings ih =>
      obtain ⟨hspelling, hspellings⟩ := List.forall_mem_cons.mp hspellings
      rw [List.find?_cons, List.find?_cons, ih hspellings, ← List.cons_append,
        isPrefixOf_append_newline hspelling (List.mem_cons_of_mem c h)]
  rw [punctuatorLength, hfind punctuators (by decide), punctuatorLength]

/-- The lexeme at the start of a text is found before the next newline, unless it is a comment
without an end. -/
theorem first_append (h : '\n' ∈ cs) (hend : first c cs ≠ .error .unterminatedComment)
    (rest : List Char) : first c (cs ++ rest) = first c cs := by
  unfold first at hend ⊢
  rw [head?_append_of_mem h]
  by_cases hnewline : c = '\n'
  · rw [if_pos hnewline, if_pos hnewline]
  rw [if_neg hnewline] at hend ⊢
  rw [if_neg hnewline]
  by_cases hblank : isBlank c = true
  · rw [if_pos hblank, if_pos hblank, spanLength_append (by decide) h]
  rw [if_neg hblank] at hend ⊢
  rw [if_neg hblank]
  by_cases hline : (c = '/' && cs.head? = some '/') = true
  · rw [if_pos hline, if_pos hline, spanLength_append (by decide) h]
  rw [if_neg hline] at hend ⊢
  rw [if_neg hline]
  by_cases hblock : (c = '/' && cs.head? = some '*') = true
  · rw [if_pos hblock] at hend ⊢
    rw [if_pos hblock]
    have htail : (cs ++ rest).tail = cs.tail ++ rest := by
      cases cs with
      | nil => cases h
      | cons d cs => rfl
    rw [htail]
    cases hlength : commentLength cs.tail with
    | ok n => rw [commentLength_append hlength]
    | error fault =>
      rw [hlength, commentLength_error hlength] at hend
      exact absurd rfl hend
  rw [if_neg hblock, if_neg hblock, numberLength_append h, nameLength_append h,
    literalLength_append h, punctuatorLength_append h]

/-! ## Line ends -/

theorem kind_of_literalLength {kind : Kind} {n : Nat} (h : literalLength quote cs = .ok (kind, n)) :
    kind = .string ∨ kind = .character := by
  unfold literalLength at h
  split at h
  · cases h
  split at h
  · cases h
    exact .inl rfl
  split at h
  · cases h
  · cases h
    exact .inr rfl

theorem kind_of_encoded {kind : Kind} {k n : Nat}
    (h : ((literalLength quote cs).map fun (kind, m) => (kind, k + 1 + m)) = .ok (kind, n)) :
    kind = .string ∨ kind = .character := by
  obtain ⟨⟨kind', m⟩, hquote, heq⟩ := map_eq_ok_iff.mp h
  cases heq
  exact kind_of_literalLength hquote

theorem kind_of_nameLength {kind : Kind} {n : Nat} (h : nameLength c cs = .ok (kind, n)) :
    kind = .identifier ∨ kind = .string ∨ kind = .character := by
  simp only [nameLength] at h
  split at h
  · split at h
    · exact .inr (kind_of_encoded h)
    · exact .inr (kind_of_encoded h)
    · cases h
      exact .inl rfl
  · cases h
    exact .inl rfl

theorem kind_of_punctuatorLength {kind : Kind} {n : Nat} (h : punctuatorLength c cs = (kind, n)) :
    kind = .punctuator ∨ kind = .other := by
  unfold punctuatorLength at h
  split at h
  · cases h
    exact .inl rfl
  · cases h
    exact .inr rfl

/-- A line end is the newline character. -/
theorem first_newline {n : Nat} (h : first c cs = .ok (.newline, n)) : c = '\n' ∧ n = 0 := by
  unfold first at h
  split at h
  · rename_i hc
    cases h
    exact ⟨hc, rfl⟩
  split at h
  · cases h
  split at h
  · cases h
  split at h
  · obtain ⟨m, -, heq⟩ := map_eq_ok_iff.mp h
    cases heq
  split at h
  · cases h
  split at h
  · rcases kind_of_nameLength h with hkind | hkind | hkind <;> cases hkind
  split at h
  · rcases kind_of_literalLength h with hkind | hkind <;> cases hkind
  · rcases kind_of_punctuatorLength (Except.ok.inj h) with hkind | hkind <;> cases hkind

end Lexeme

open Lexeme

theorem text_newline {u text : List Char} (h : .token .newline text ∈ lexemes u) :
    text = ['\n'] := by
  fun_induction lexemes u with
  | case1 => cases h
  | case2 c cs kind n hfirst ih =>
    rcases List.mem_cons.mp h with heq | h
    · cases heq
      obtain ⟨rfl, rfl⟩ := first_newline hfirst
      rfl
    · exact ih h
  | case3 c cs cause hfirst n ih =>
    rcases List.mem_cons.mp h with heq | h
    · cases heq
    · exact ih h

/-- Whether the last of lexemes, if there is any, is a line end. -/
def EndsLine (ls : List Lexeme) : Prop := ∀ l ∈ ls.getLast?, ∃ text, l = .token .newline text

/-- A text that is read up to a line end ends with the newline character. -/
theorem EndsLine.getLast? {u : List Char} (h : EndsLine (lexemes u)) (hne : u ≠ []) :
    u.getLast? = some '\n' := by
  have hflat := flatMap_text_lexemes u
  cases hls : (lexemes u).getLast? with
  | none =>
    rw [List.getLast?_eq_none_iff] at hls
    rw [hls] at hflat
    exact absurd hflat.symm hne
  | some l =>
    obtain ⟨text, rfl⟩ := h l hls
    obtain ⟨ls, hls⟩ := List.getLast?_eq_some_iff.mp hls
    have hmem : .token .newline text ∈ lexemes u := by
      rw [hls]
      simp
    have htext := text_newline hmem
    rw [hls, htext] at hflat
    rw [← hflat]
    simp [Lexeme.text]

theorem EndsLine.tail {l : Lexeme} {ls : List Lexeme} (h : EndsLine (l :: ls)) : EndsLine ls := by
  cases ls with
  | nil => exact nofun
  | cons l' ls =>
    intro last hlast
    exact h last (by rwa [List.getLast?_cons_cons])

/-- Where a text that is read up to a line end begins with something else, more is read. -/
theorem EndsLine.mem_drop {l : Lexeme} {cs : List Char} {n : Nat}
    (h : EndsLine (l :: lexemes (cs.drop n))) (hl : ∀ text, l ≠ .token .newline text) :
    '\n' ∈ cs.drop n := by
  have hdrop : cs.drop n ≠ [] := by
    intro hnil
    rw [hnil, lexemes] at h
    obtain ⟨text, heq⟩ := h l rfl
    exact hl text heq
  exact List.mem_of_getLast? (h.tail.getLast? hdrop)

/-- What follows a text that is read up to a line end is read on its own. -/
theorem lexemes_append {u : List Char} (h : EndsLine (lexemes u)) (v : List Char) :
    lexemes (u ++ v) = lexemes u ++ lexemes v := by
  fun_induction lexemes u with
  | case1 => rfl
  | case2 c cs kind n hfirst ih =>
    have htail := ih h.tail
    by_cases hkind : kind = .newline
    · subst hkind
      obtain ⟨rfl, rfl⟩ := first_newline hfirst
      have hv : Lexeme.first '\n' (cs ++ v) = .ok (.newline, 0) := by rw [Lexeme.first, if_pos rfl]
      rw [List.cons_append, lexemes, hv]
      simpa using htail
    · have hmem := h.mem_drop fun text heq => hkind (Lexeme.token.inj heq).1
      have hv : Lexeme.first c (cs ++ v) = .ok (kind, n) := by
        rw [first_append (List.mem_of_mem_drop hmem) (by rw [hfirst]; exact nofun), hfirst]
      rw [List.cons_append, lexemes, hv]
      simp only
      rw [take_append_of_mem hmem, drop_append_of_mem hmem, htail, List.cons_append]
  | case3 c cs cause hfirst n ih =>
    have htail := ih h.tail
    have hmem := h.mem_drop nofun
    have hcause : cause ≠ .unterminatedComment := by
      rintro rfl
      simp [n, faultLength] at hmem
    have hv : Lexeme.first c (cs ++ v) = .error cause := by
      rw [first_append (List.mem_of_mem_drop hmem), hfirst]
      rw [hfirst]
      exact fun heq => hcause (Except.error.inj heq)
    have hn : faultLength cause (cs ++ v) = n := by
      rw [faultLength, if_neg hcause, spanLength_append (by decide) (List.mem_of_mem_drop hmem)]
      simp only [n, faultLength, if_neg hcause]
    rw [List.cons_append, lexemes, hv]
    simp only
    rw [hn, take_append_of_mem hmem, drop_append_of_mem hmem, htail, List.cons_append]

end CPreprocessor
