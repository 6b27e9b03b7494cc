import CPreprocessor.Proofs.Source.Content

/-!
# Where a token may begin

A `/` goes on with a comment or a literal that is not closed, makes a comment out of a `/` right
before it, and begins a token after anything else. Where it begins a token, the text before is read
in the same way when a blank stands there instead (`content_seam`).
-/

namespace CPreprocessor

/-- Whether a `/` right after a text begins a token. -/
def Seam (u : List Char) : Prop :=
  (lexemes (u ++ ['/'])).getLast? = some (.token .punctuator ['/'])

instance : DecidablePred Seam := fun _ => inferInstanceAs (Decidable (_ = _))

namespace Lexeme

variable {p : Char → Bool} {c d : Char} {cs : List Char} {kind : Kind} {cause : LexFault} {n : Nat}

/-! ## Text before the seam -/

/-- A character that goes on with nothing but a comment, a literal or blanks. -/
def Breaks (d : Char) : Prop := d = '/' ∨ d = ' '

theorem Breaks.class (h : Breaks d) :
    isNameChar d = false ∧ d ≠ '.' ∧ isSign d = false ∧ ¬ IsQuote d ∧ Text.isDigit d = false := by
  rcases h with rfl | rfl <;> decide

theorem Breaks.not_mem_tail (h : Breaks d) : ∀ p ∈ punctuators, d ∉ p.tail := by
  rcases h with rfl | rfl <;> decide

/-- What holds of every such character holds of the next character also if it is another one. -/
theorem head?_append_breaks {P : Char → Prop} (hd : Breaks d) (hP : ∀ e, Breaks e → P e)
    (h : ∀ e ∈ (cs ++ ['/']).head?, P e) (x : List Char) : ∀ e ∈ (cs ++ d :: x).head?, P e := by
  cases cs with
  | nil =>
    rintro e ⟨⟩
    exact hP d hd
  | cons e cs => exact h

theorem mem_newline_of_spanLength_le (h : spanLength (· ≠ '\n') (cs ++ ['/']) ≤ cs.length) :
    '\n' ∈ cs := by
  refine Classical.byContradiction fun hmem => ?_
  have hall : ∀ d ∈ cs ++ ['/'], decide (d ≠ '\n') = true := by
    intro d hd
    rcases List.mem_append.mp hd with hd | hd
    · exact decide_eq_true fun heq => hmem (heq ▸ hd)
    · rw [List.mem_singleton.mp hd]
      rfl
  rw [spanLength_eq_length_iff.mpr hall, List.length_append] at h
  exact Nat.not_succ_le_self _ h

theorem spanLength_append_of_lt_append {v : List Char} (h : spanLength p (cs ++ v) < cs.length)
    (w : List Char) : spanLength p (cs ++ w) = spanLength p (cs ++ v) := by
  have hcs := spanLength_take p cs.length (cs ++ v)
  rw [List.take_left, Nat.min_eq_right (Nat.le_of_lt h)] at hcs
  rw [spanLength_append_of_lt (hcs ▸ h), hcs]

theorem numberLength_append_breaks (hd : Breaks d) (cs x : List Char) :
    numberLength (cs ++ d :: x) = numberLength cs := by
  obtain ⟨hname, hpoint, hsign, -⟩ := hd.class
  have hzero : numberLength (d :: x) = 0 :=
    numberLength_of_stop (by rintro e ⟨⟩; exact ⟨hname, hpoint⟩)
  fun_induction numberLength cs with
  | case1 => exact hzero
  | case2 c h =>
    rw [List.singleton_append, numberLength, hsign, Bool.and_false, if_neg Bool.false_ne_true,
      if_pos h, hzero]
  | case3 c h =>
    rw [List.singleton_append, numberLength, hsign, Bool.and_false, if_neg Bool.false_ne_true,
      if_neg h]
  | case4 c e cs hmark ih =>
    rw [List.cons_append, List.cons_append, numberLength, if_pos hmark, ih]
  | case5 c e cs hmark h ih =>
    rw [List.cons_append] at ih
    rw [List.cons_append, List.cons_append, numberLength, if_neg hmark, if_pos h, ih]
  | case6 c e cs hmark h =>
    rw [List.cons_append, List.cons_append, numberLength, if_neg hmark, if_neg h]

/-! ## The first lexeme -/

theorem first_append_layout (h : first c (cs ++ ['/']) = .ok (kind, n))
    (hkind : kind.isLayout = true) (hn : n ≤ cs.length)
    (hblank : kind = .whitespace → n < cs.length) (w : List Char) :
    first c (cs ++ w) = .ok (kind, n) := by
  obtain ⟨rfl, rfl, rfl⟩ | ⟨-, hc, rfl, rfl⟩ | ⟨rfl, rfl, d, rest, m, hrest, rfl, hform⟩ :=
    first_layout_cases h hkind
  · rfl
  · rw [first_blank hc, spanLength_append_of_lt_append (hblank rfl)]
  · cases cs with
    | nil => exact absurd hn (Nat.not_succ_le_zero m)
    | cons e cs =>
      rw [List.cons_append] at hrest
      obtain ⟨rfl, rfl⟩ := List.cons.inj hrest
      have hm : m ≤ cs.length := Nat.le_of_succ_le_succ hn
      rcases hform with ⟨rfl, rfl⟩ | ⟨rfl, hlength⟩
      · have hmem := mem_newline_of_spanLength_le hm
        rw [List.cons_append, first_line, spanLength_append (by decide) hmem,
          spanLength_append (by decide) hmem]
      · have htake := commentLength_take hlength
        rw [List.take_append_of_le_length hm] at htake
        have hmore := commentLength_append htake (cs.drop m ++ w)
        rw [← List.append_assoc, List.take_append_drop] at hmore
        rw [List.cons_append, first_block, hmore]
        rfl

/-- A punctuator that is read is as long as it can be, whatever stands after the seam. -/
theorem not_prefix_breaks (hd : Breaks d)
    (h : ∀ p ∈ punctuators, n < p.length → ¬ p <+: c :: (cs ++ ['/'])) (x : List Char) :
    ∀ p ∈ punctuators, n < p.length → ¬ p <+: c :: (cs ++ d :: x) := by
  intro p hp hlength hpre
  have hcut : c :: (cs ++ [d]) <+: c :: (cs ++ d :: x) := ⟨x, by simp⟩
  have hmem : c :: (cs ++ [d]) <+: p → False := by
    rintro ⟨rest, rfl⟩
    exact hd.not_mem_tail _ hp (by simp)
  rcases List.prefix_or_prefix_of_prefix hpre hcut with hpre | hpre
  · rcases List.prefix_concat_iff.mp (show p <+: (c :: cs) ++ [d] from hpre) with rfl | hpre
    · exact hmem (List.prefix_refl _)
    · exact h p hp hlength (hpre.trans (List.prefix_append (c :: cs) ['/']))
  · exact hmem hpre

theorem stops_breaks (hd : Breaks d) (h : first c (cs ++ ['/']) = .ok (kind, n))
    (hkind : kind.isLayout = false) (hnumber : kind ≠ .number) (hn : n ≤ cs.length)
    (x : List Char) : Stops kind (c :: cs.take n) (cs.drop n ++ d :: x) := by
  have hdrop : (cs ++ ['/']).drop n = cs.drop n ++ ['/'] := List.drop_append_of_le_length hn
  have htake : (cs ++ ['/']).take n = cs.take n := List.take_append_of_le_length hn
  have hplain := NoLayout.of_first h hkind
  cases kind with
  | identifier =>
    obtain ⟨word, after, hcs, -, ⟨-, rfl, hstop, hquote⟩ | ⟨-, _, _, m, -, -, hliteral, -⟩⟩ :=
      nameLength_cases (nameLength_of_first h)
    · rw [hcs, List.drop_left] at hdrop
      rw [hcs, List.take_left] at htake
      rw [hdrop] at hstop hquote
      rw [← htake]
      exact ⟨head?_append_breaks hd (fun e he => he.class.1) hstop x,
        fun hpre => head?_append_breaks hd (fun e he => he.class.2.2.2.1) (hquote hpre) x⟩
    · rcases kind_of_literalLength hliteral with hkind | hkind <;> cases hkind
  | punctuator =>
    obtain ⟨-, hkind, -⟩ | ⟨hstart, ⟨-, h⟩ | ⟨-, ⟨-, h⟩ | ⟨-, hlength⟩⟩⟩ := first_cases h rfl
    · cases hkind
    · rcases kind_of_nameLength h with hkind | hkind | hkind <;> cases hkind
    · rcases kind_of_literalLength h with hkind | hkind <;> cases hkind
    obtain ⟨-, hother⟩ | ⟨u, hu, hpre, hread, hmax⟩ := punctuatorLength_cases c (cs ++ ['/'])
    · rw [hother] at hlength
      cases hlength
    rw [hread] at hlength
    obtain rfl : u.length = n := congrArg Prod.snd hlength
    -- A punctuator of one character is followed by all of the text up to the seam.
    have hone : cs.take u.length = [] → cs.drop u.length = cs := by
      intro hnil
      have hzero := congrArg List.length hnil
      rw [List.length_take_of_le hn] at hzero
      rw [hzero, List.length_nil, List.drop_zero]
    refine ⟨fun hslash => ?_, fun hpoint => ?_, ?_⟩
    · obtain ⟨rfl, hnil⟩ := List.cons.inj hslash
      rw [hone hnil]
      cases cs with
      | nil => exact absurd rfl (hplain.comment rfl '/' rfl).1
      | cons e cs => exact hplain.comment rfl
    · obtain ⟨rfl, hnil⟩ := List.cons.inj hpoint
      rw [hone hnil]
      have hdigit : ∀ e ∈ (cs ++ ['/']).head?, Text.isDigit e = false := by
        rw [startsNumber, Bool.or_eq_false_iff, decide_eq_true rfl, Bool.true_and] at hstart
        exact (Option.any_eq_false ..).mp hstart.2
      exact head?_append_breaks hd (fun e he => he.class.2.2.2.2) hdigit x
    · have hsplit :
          c :: cs.take u.length ++ (cs.drop u.length ++ d :: x) = c :: (cs ++ d :: x) := by
        rw [List.cons_append, ← List.append_assoc, List.take_append_drop]
      rw [hsplit, List.length_cons, List.length_take_of_le hn]
      exact not_prefix_breaks hd hmax x
  | number => exact absurd rfl hnumber
  | _ => trivial

/-- What is read first of a text is read also when the seam is another character. -/
theorem first_append_breaks (hd : Breaks d) (h : first c (cs ++ ['/']) = .ok (kind, n))
    (hn : n ≤ cs.length) (hblank : kind = .whitespace → n < cs.length) (x : List Char) :
    first c (cs ++ d :: x) = .ok (kind, n) := by
  cases hkind : kind.isLayout with
  | true => exact first_append_layout h hkind hn hblank (d :: x)
  | false =>
    by_cases hnumber : kind = .number
    · subst hnumber
      obtain ⟨hstart, rfl⟩ := startsNumber_of_first h
      have hclass : Text.isDigit c = true ∨ c = '.' := by
        simp only [startsNumber, Bool.or_eq_true, Bool.and_eq_true, decide_eq_true_eq] at hstart
        exact hstart.imp_right And.left
      have hmore : NoLayout c (cs ++ d :: x) :=
        noLayout_of_class (.inr (hclass.imp_right fun hpoint => .inr hpoint))
      have hstarts : startsNumber c (cs ++ d :: x) = true := by
        cases cs with
        | nil =>
          have hslash : Text.isDigit '/' = false := by decide
          have hdigit : Text.isDigit c = true := by
            simpa only [startsNumber, List.nil_append, List.head?_cons, Option.any_some, hslash,
              Bool.and_false, Bool.or_false] using hstart
          rw [startsNumber, hdigit, Bool.true_or]
        | cons e cs => exact hstart
      rw [hmore.first_eq, if_pos hstarts, numberLength_append_breaks hd,
        numberLength_append_breaks (.inl rfl)]
    · have hlength : (cs.take n).length = n := List.length_take_of_le hn
      have htake : first c (cs.take n) = .ok (kind, (cs.take n).length) := by
        rw [hlength, ← first_take h fun hnum => absurd hnum hnumber,
          List.take_append_of_le_length hn]
      have hmore := first_append_of_stops htake hkind (stops_breaks hd h hkind hnumber hn x)
      rwa [← List.append_assoc, List.take_append_drop, hlength] at hmore

theorem blanks_of_first (h : first c (cs ++ ['/']) = .ok (.whitespace, n)) (hn : n = cs.length) :
    ∀ d ∈ c :: cs, isBlank d = true ∨ d = '\n' := by
  obtain ⟨-, hkind, -⟩ | ⟨-, hc, -, hspan⟩ | ⟨-, hkind, -⟩ := first_layout_cases h rfl
  · cases hkind
  · have hcs := spanLength_take isBlank cs.length (cs ++ ['/'])
    rw [List.take_left, ← hspan, hn, Nat.min_self] at hcs
    rw [List.forall_mem_cons]
    exact ⟨.inl hc, fun d hd => .inl (spanLength_eq_length_iff.mp hcs d hd)⟩
  · cases hkind

theorem NoLayout.of_error (h : first c cs = .error cause) (hcause : cause ≠ .unterminatedComment) :
    NoLayout c cs where
  newline := by
    rintro rfl
    cases h
  blank := by
    refine Bool.eq_false_iff.mpr fun hblank => ?_
    rw [first_blank hblank] at h
    cases h
  comment := by
    rintro rfl d hd
    obtain ⟨cs, rfl⟩ := List.head?_eq_some_iff.mp hd
    refine ⟨?_, ?_⟩
    · rintro rfl
      cases h
    · rintro rfl
      rw [first_block] at h
      exact hcause (commentLength_error (map_eq_error_iff.mp h))

theorem NoLayout.first_append (h : NoLayout c cs) (hmem : '\n' ∈ cs) (w : List Char) :
    first c (cs ++ w) = first c cs := by
  have hhead := head?_append_of_mem hmem w
  have hmore : NoLayout c (cs ++ w) := ⟨h.newline, h.blank, by rw [hhead]; exact h.comment⟩
  rw [hmore.first_eq, h.first_eq, startsNumber, hhead, numberLength_append hmem,
    nameLength_append hmem, literalLength_append hmem, punctuatorLength_append hmem, startsNumber]

theorem first_append_fault (h : first c (cs ++ ['/']) = .error cause)
    (hn : faultLength cause (cs ++ ['/']) ≤ cs.length) (w : List Char) :
    first c (cs ++ w) = .error cause := by
  have hcause : cause ≠ .unterminatedComment := by
    rintro rfl
    rw [faultLength, if_pos rfl, List.length_append] at hn
    exact Nat.not_succ_le_self _ hn
  rw [faultLength, if_neg hcause] at hn
  have hmem := mem_newline_of_spanLength_le hn
  have hmore := NoLayout.of_error h hcause
  have hplain : NoLayout c cs :=
    ⟨hmore.newline, hmore.blank, by rw [← head?_append_of_mem hmem ['/']]; exact hmore.comment⟩
  rw [hplain.first_append hmem, ← hplain.first_append hmem ['/'], h]

end Lexeme

/-! ## All of the text before the seam -/

section
variable {c : Char} {cs u x y : List Char} {n : Nat}

/-- The seam is after the first lexeme. -/
theorem seam_drop {l : Lexeme} (hl : l.text = c :: (cs ++ ['/']).take n)
    (h : (l :: lexemes ((cs ++ ['/']).drop n)).getLast? = some (.token .punctuator ['/'])) :
    n ≤ cs.length ∧ Seam (cs.drop n) := by
  by_cases hn : n ≤ cs.length
  · rw [List.drop_append_of_le_length hn] at h
    refine ⟨hn, ?_⟩
    rw [Seam]
    cases hlexemes : lexemes (cs.drop n ++ ['/']) with
    | nil =>
      have htext := flatMap_text_lexemes (cs.drop n ++ ['/'])
      rw [hlexemes] at htext
      exact absurd htext.symm (List.append_ne_nil_of_right_ne_nil _ (List.cons_ne_nil _ _))
    | cons l' ls => rwa [hlexemes, List.getLast?_cons_cons] at h
  · have hle : (cs ++ ['/']).length ≤ n := by
      rw [List.length_append]
      exact Nat.lt_of_not_le hn
    rw [List.drop_eq_nil_of_le hle, lexemes] at h
    rw [Option.some.inj (show some l = _ from h), List.take_of_length_le hle] at hl
    exact absurd (List.cons.inj hl).2.symm
      (List.append_ne_nil_of_right_ne_nil _ (List.cons_ne_nil _ _))

theorem Seam.cases (h : Seam (c :: cs)) :
    (∃ kind n, Lexeme.first c (cs ++ ['/']) = .ok (kind, n) ∧ n ≤ cs.length ∧ Seam (cs.drop n)) ∨
      ∃ cause, Lexeme.first c (cs ++ ['/']) = .error cause ∧
        Lexeme.faultLength cause (cs ++ ['/']) ≤ cs.length := by
  rw [Seam, List.cons_append, lexemes] at h
  cases hfirst : Lexeme.first c (cs ++ ['/']) with
  | ok read =>
    rw [hfirst] at h
    exact .inl ⟨read.1, read.2, rfl, seam_drop rfl h⟩
  | error cause =>
    rw [hfirst] at h
    exact .inr ⟨cause, rfl, (seam_drop rfl h).1⟩

/-- What a text says does not depend on whether a `/` or a blank stands at its seam, if what follows
says the same. -/
theorem content_seam (hu : Seam u) (h : content ('/' :: x) = content (' ' :: y)) :
    content (u ++ '/' :: x) = content (u ++ ' ' :: y) := by
  induction hlength : u.length using Nat.strongRecOn generalizing u with
  | ind length ih =>
    cases u with
    | nil => exact h
    | cons c cs =>
      obtain ⟨kind, n, hfirst, hn, hrest⟩ | ⟨cause, hfirst, hn⟩ := hu.cases
      · by_cases hblank : kind = .whitespace → n < cs.length
        · have hread := fun d hd => Lexeme.first_append_breaks (d := d) hd hfirst hn hblank
          have hsame := ih (cs.drop n).length
            (by rw [← hlength, List.length_drop, List.length_cons]; omega) hrest rfl
          rw [List.cons_append, List.cons_append, content_cons (hread '/' (.inl rfl) x),
            content_cons (hread ' ' (.inr rfl) y), List.drop_append_of_le_length hn,
            List.drop_append_of_le_length hn, List.take_append_of_le_length hn,
            List.take_append_of_le_length hn, hsame]
        · -- Blanks up to the seam are one lexeme with a blank that stands there.
          obtain ⟨rfl, hend⟩ := Classical.not_imp.mp hblank
          have hall := Lexeme.blanks_of_first hfirst (Nat.le_antisymm hn (Nat.le_of_not_lt hend))
          rw [content_layout hall, content_layout hall, h]
      · rw [List.cons_append, List.cons_append,
          content_fault (Lexeme.first_append_fault hfirst hn ('/' :: x)),
          content_fault (Lexeme.first_append_fault hfirst hn (' ' :: y))]

end

end CPreprocessor
