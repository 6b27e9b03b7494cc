import CPreprocessor.Proofs.Source.Boundary
import CPreprocessor.Proofs.Source.Splice

/-!
# What a significant token holds and how it ends

A token that is no layout holds no newline (`Lexeme.not_mem_newline_of_first`), and none but the
backslash ends where a newline would make a splice (`Lexeme.not_goesOn_of_first`).
-/

namespace CPreprocessor.Lexeme

variable {c quote : Char} {cs : List Char} {kind : Kind}

theorem mem_of_numberLength (h : numberLength cs = cs.length) :
    ∀ d ∈ cs, isNameChar d = true ∨ d = '.' ∨ isSign d = true := by
  fun_induction numberLength cs with
  | case1 => exact List.forall_mem_nil _
  | case2 c hc =>
    intro d hd
    obtain rfl := List.mem_singleton.mp hd
    rw [Bool.or_eq_true, beq_iff_eq] at hc
    exact hc.imp_right .inl
  | case3 c hc => cases h
  | case4 c d cs hmark ih =>
    rw [Bool.and_eq_true] at hmark
    refine List.forall_mem_cons.mpr ⟨?_, List.forall_mem_cons.mpr ⟨.inr (.inr hmark.2), ?_⟩⟩
    · have hc := hmark.1
      simp only [isExponentMark, Bool.or_eq_true, beq_iff_eq] at hc
      rcases hc with ((rfl | rfl) | rfl) | rfl <;> exact .inl (by decide)
    · exact ih (Nat.add_right_cancel h)
  | case5 c d cs hmark hc ih =>
    rw [Bool.or_eq_true, beq_iff_eq] at hc
    exact List.forall_mem_cons.mpr ⟨hc.imp_right .inl, ih (Nat.add_right_cancel h)⟩
  | case6 c d cs => cases h

theorem getLast?_of_bodyLength (h : bodyLength quote cs = .ok cs.length) :
    cs.getLast? = some quote := by
  generalize hn : cs.length = n at h
  fun_induction bodyLength quote cs generalizing n with
  | case1 => cases h
  | case2 => cases h
  | case3 cs hnewline =>
    cases h
    rw [List.length_eq_zero_iff.mp (Nat.succ.inj hn)]
    rfl
  | case4 => cases h
  | case5 cs k hk hnewline hquote ih =>
    obtain ⟨m, hm, rfl⟩ := map_eq_ok_iff.mp h
    have hlt := lt_length_of_bodyLength_drop hm
    have hlast := ih m (by rw [List.length_drop]; rw [List.length_cons] at hn; omega) hm
    rw [List.getLast?_drop, if_neg (Nat.not_le_of_lt hlt)] at hlast
    rw [List.getLast?_cons, hlast]
    rfl
  | case6 c cs hnewline hquote hescape ih =>
    obtain ⟨m, hm, rfl⟩ := map_eq_ok_iff.mp h
    rw [List.getLast?_cons, ih m (Nat.succ.inj hn) hm]
    rfl

theorem not_goesOn_of_literal (hquote : IsQuote quote)
    (h : literalLength quote cs = .ok (kind, cs.length)) (word : List Char) :
    ¬ GoesOn (word ++ quote :: cs) := by
  intro hgoes
  have hlast : (word ++ quote :: cs).getLast? = some quote := by
    rw [List.getLast?_append, List.getLast?_cons,
      getLast?_of_bodyLength (bodyLength_of_literalLength h).1]
    rfl
  rcases hgoes.getLast? with h | h
  · rw [hlast] at h
    cases h
    exact absurd hquote (by decide)
  · rw [hlast] at h
    cases h
    exact absurd hquote (by decide)

theorem isNameChar_of_identifier (h : first c cs = .ok (.identifier, cs.length)) :
    ∀ d ∈ cs, isNameChar d = true := by
  obtain ⟨word, after, rfl, hword, ⟨-, hn, -⟩ | ⟨-, quote, rest, m, -, -, hliteral, -⟩⟩ :=
    nameLength_cases (nameLength_of_first h)
  · rw [List.length_append, Nat.add_eq_left, List.length_eq_zero_iff] at hn
    subst hn
    rw [List.append_nil]
    exact spanLength_eq_length_iff.mp hword
  · rcases kind_of_literalLength hliteral with hkind | hkind <;> cases hkind

theorem not_mem_newline_of_literal (h : literalLength quote cs = .ok (kind, cs.length)) :
    '\n' ∉ cs := by
  intro hmem
  have hdrop := mem_drop_of_le (bodyLength_le_line (bodyLength_of_literalLength h).1)
    (mem_drop_spanLength (by decide) hmem)
  rw [List.drop_length] at hdrop
  cases hdrop

/-- A token that is no layout holds no newline. -/
theorem not_mem_newline_of_first (h : first c cs = .ok (kind, cs.length))
    (hkind : kind.isLayout = false) : '\n' ∉ c :: cs := by
  have hc : '\n' ≠ c := (NoLayout.of_first h hkind).newline.symm
  suffices hmem : '\n' ∉ cs from List.not_mem_cons_of_ne_of_not_mem hc hmem
  obtain ⟨-, -, hn⟩ | ⟨-, ⟨-, h⟩ | ⟨-, ⟨-, h⟩ | ⟨-, h⟩⟩⟩ := first_cases h hkind
  · exact fun hmem => absurd (mem_of_numberLength hn.symm _ hmem) (by decide)
  · obtain ⟨word, after, rfl, hword, ⟨rfl, hn, -⟩ | ⟨-, quote, rest, m, hquote, rfl, hliteral, hn⟩⟩ :=
      nameLength_cases h
    · rw [List.length_append, Nat.add_eq_left, List.length_eq_zero_iff] at hn
      subst hn
      rw [List.append_nil]
      exact fun hmem => absurd (spanLength_eq_length_iff.mp hword _ hmem) (by decide)
    · have hm : m = rest.length := by
        rw [List.length_append, List.length_cons] at hn
        omega
      subst hm
      intro hmem
      rcases List.mem_append.mp hmem with hmem | hmem
      · exact absurd (spanLength_eq_length_iff.mp hword _ hmem) (by decide)
      · rcases List.mem_cons.mp hmem with rfl | hmem
        · exact absurd hquote (by decide)
        · exact not_mem_newline_of_literal hliteral hmem
  · exact not_mem_newline_of_literal h
  · obtain ⟨-, hother⟩ | ⟨u, hu, hpre, hlength, -⟩ := punctuatorLength_cases c cs
    · rw [hother] at h
      obtain rfl := List.length_eq_zero_iff.mp (congrArg Prod.snd h).symm
      exact List.not_mem_nil
    · rw [hlength] at h
      obtain rfl := hpre.eq_of_length (congrArg Prod.snd h)
      intro hmem
      exact absurd (class_of_mem_punctuators _ hu _ (List.mem_cons_of_mem _ hmem)).1 (by decide)

/-- A token other than the backslash does not end in one. -/
theorem not_goesOn_of_first (h : first c cs = .ok (kind, cs.length)) (hkind : kind.isLayout = false)
    (hbackslash : kind = .other → c :: cs ≠ ['\\']) : ¬ GoesOn (c :: cs) := by
  obtain ⟨hnumber, -, hn⟩ | ⟨-, ⟨hname, h⟩ | ⟨-, ⟨hquote, h⟩ | ⟨-, h⟩⟩⟩ := first_cases h hkind
  · intro hgoes
    rcases List.mem_cons.mp hgoes.mem with rfl | hmem
    · exact absurd hnumber (by simp [startsNumber, Text.isDigit, Char.isDigit])
    · exact absurd (mem_of_numberLength hn.symm _ hmem) (by decide)
  · obtain ⟨word, after, rfl, hword, ⟨rfl, hn, -⟩ | ⟨-, quote, rest, m, hquote, rfl, hliteral, hn⟩⟩ :=
      nameLength_cases h
    · rw [List.length_append, Nat.add_eq_left, List.length_eq_zero_iff] at hn
      subst hn
      rw [List.append_nil]
      intro hgoes
      have hchar : ∀ d ∈ c :: word, isNameChar d = true := by
        refine List.forall_mem_cons.mpr ⟨by rw [isNameChar, hname, Bool.true_or], ?_⟩
        exact spanLength_eq_length_iff.mp hword
      exact absurd (hchar _ hgoes.mem) (by decide)
    · have hm : m = rest.length := by
        rw [List.length_append, List.length_cons] at hn
        omega
      subst hm
      exact not_goesOn_of_literal hquote hliteral (c :: word)
  · exact not_goesOn_of_literal hquote h []
  · obtain ⟨-, hother⟩ | ⟨u, hu, hpre, hlength, -⟩ := punctuatorLength_cases c cs
    · rw [hother] at h
      obtain rfl := List.length_eq_zero_iff.mp (congrArg Prod.snd h).symm
      intro hgoes
      exact hbackslash (congrArg Prod.fst h).symm (by rw [← List.mem_singleton.mp hgoes.mem])
    · rw [hlength] at h
      obtain rfl := hpre.eq_of_length (congrArg Prod.snd h)
      intro hgoes
      exact absurd (class_of_mem_punctuators _ hu _ hgoes.mem).1 (by decide)

end CPreprocessor.Lexeme
