import CPreprocessor.Expansion.Substitution
import CPreprocessor.Proofs.Render.Separation
import CPreprocessor.Proofs.Source.Ending

/-!
# What two operands of `##` join to

A token that is expanded is spelled as it may be printed, or as a comment, or it is an empty operand
of `##` (`Token.Lexed`). So is what two such tokens join to (`Token.Lexed.paste`). Their joined
spelling has no splice, unless there is a string literal in it, and then what is read begins as a
string literal does.
-/

namespace CPreprocessor

open Lexeme

variable {a c d : Char} {as cs rest u w word text : List Char} {k kind : Kind}

namespace Lexeme

/-! ## Texts that read as one token -/

theorem exists_first_of_lexemes (h : lexemes u = [.token kind text]) (hkind : kind.isLayout = false) :
    text = u ∧ ∃ c cs, u = c :: cs ∧ first c cs = .ok (kind, cs.length) := by
  have hflat := flatMap_text_lexemes u
  rw [h] at hflat
  obtain rfl : text = u := (List.append_nil text).symm.trans hflat
  let t : Token := { kind, text := String.ofList text, location := default }
  have halone : t.Alone := by
    rw [Token.Alone, String.toList_ofList]
    exact h
  obtain ⟨c, cs, hu, hfirst⟩ := halone.first_eq hkind
  rw [String.toList_ofList] at hu
  exact ⟨rfl, c, cs, hu, hfirst⟩

theorem head_literal (hword : word = [] ∨ word ∈ encodingPrefixes)
    (hd : d ∈ (word ++ '"' :: rest).head?) : IsQuote d ∨ isNameStart d = true := by
  rcases hword with rfl | hword
  · cases hd
    exact .inl (.inl rfl)
  · cases word with
    | nil => exact absurd hword (by decide)
    | cons e word =>
      cases hd
      exact .inr (isNameStart_of_mem_encodingPrefixes _ hword d rfl)

section
variable (h : first a as = .ok (k, as.length)) (hk : k.isLayout = false)
include h hk

/-- A token that is not the whole of what is read goes on. -/
theorem not_stops_of_first (hread : first a (as ++ w) = .ok (kind, (as ++ w).length)) (hw : w ≠ []) :
    ¬ Stops k (a :: as) w := by
  intro hstops
  rw [first_append_of_stops h hk hstops] at hread
  have hlength := congrArg Prod.snd (Except.ok.inj hread)
  rw [List.length_append, Nat.left_eq_add, List.length_eq_zero_iff] at hlength
  exact hw hlength

/-- A token and the beginning of a string literal read as one token only if the token gives the
literal its encoding. -/
theorem mem_encodingPrefixes_of_first (hword : word = [] ∨ word ∈ encodingPrefixes)
    (hread : first a (as ++ (word ++ '"' :: rest)) =
      .ok (kind, (as ++ (word ++ '"' :: rest)).length))
    (hkind : kind.isLayout = false) : a :: as ++ word ∈ encodingPrefixes := by
  have hquote : '"' ∈ as ++ (word ++ '"' :: rest) := by simp
  have hnot := not_stops_of_first h hk hread (by simp)
  have hnumber : startsNumber a (as ++ (word ++ '"' :: rest)) = false := by
    obtain ⟨-, -, hn⟩ | ⟨hnumber, -⟩ := first_cases hread hkind
    · exact absurd (mem_of_numberLength hn.symm _ hquote) (by decide)
    · exact hnumber
  have hstop : ∀ d ∈ (word ++ '"' :: rest).head?, [d] ∉ punctuators ∧ Text.isDigit d = false := by
    intro d hd
    rcases head_literal hword hd with hquote | hname
    · obtain ⟨hpunctuator, -, hdigit⟩ := isQuote_cases hquote
      exact ⟨hpunctuator, hdigit⟩
    · refine ⟨fun hmem => ?_, isDigit_of_isNameStart hname⟩
      have hclass := (class_of_mem_punctuators _ hmem d List.mem_cons_self).2.1
      rw [isNameChar, hname] at hclass
      cases hclass
  cases k with
  | identifier =>
    by_contra hpre
    have hname : isNameStart a = true := Token.starts_of_first h hk
    obtain ⟨hnumber', -⟩ | ⟨-, ⟨-, hlength⟩ | ⟨hname', -⟩⟩ := first_cases hread hkind
    · rw [hnumber] at hnumber'
      cases hnumber'
    · have hspan : spanLength isNameChar (as ++ word) = (as ++ word).length := by
        refine spanLength_eq_length_iff.mpr (List.forall_mem_append.mpr ⟨?_, ?_⟩)
        · exact isNameChar_of_identifier h
        · rcases hword with rfl | hword
          · exact List.forall_mem_nil _
          · exact isNameChar_of_mem_encodingPrefixes word hword
      rw [← List.append_assoc, nameLength_word hspan (by rintro d ⟨⟩; decide)
        fun hmem => absurd hmem hpre] at hlength
      have hlength := congrArg Prod.snd (Except.ok.inj hlength)
      simp at hlength
    · rw [hname] at hname'
      cases hname'
  | number =>
    have htaken : startsNumber a ((as ++ (word ++ '"' :: rest)).take as.length) = true := by
      rw [List.take_left]
      exact (startsNumber_of_first h).1
    have hstarts := startsNumber_of_take htaken
    rw [hnumber] at hstarts
    cases hstarts
  | punctuator => exact absurd (Token.stops_of_head hstop) hnot
  | _ => exact absurd trivial hnot

/-- No token goes on with a slash. -/
theorem not_first_append_slash
    (hread : first a (as ++ '/' :: rest) = .ok (kind, (as ++ '/' :: rest).length))
    (hkind : kind.isLayout = false) : False := by
  refine not_stops_of_first h hk hread (List.cons_ne_nil _ _) ?_
  cases k with
  | identifier => exact ⟨by rintro e ⟨⟩; decide, by rintro - e ⟨⟩; decide⟩
  | number => exact ⟨by rintro e ⟨⟩; decide, by rintro - - - e ⟨⟩; decide⟩
  | punctuator =>
    refine ⟨fun heq => ?_, by rintro - e ⟨⟩; decide, fun p hp hlength hpre => ?_⟩
    · obtain ⟨rfl, rfl⟩ := List.cons.inj heq
      exact absurd ((NoLayout.of_first hread hkind).comment rfl '/' rfl).1 (not_not_intro rfl)
    · obtain ⟨e, v, v', hw, rfl, -⟩ := Token.exists_longer hlength hpre
      obtain ⟨rfl, -⟩ := List.cons.inj hw
      have hslash : ∀ p ∈ punctuators, '/' ∉ p.tail := by decide
      exact hslash _ hp (by simp)
  | _ => exact trivial

end

end Lexeme

namespace Token

variable {t l r : Token}

/-- How a token that is expanded is spelled. -/
inductive Lexed (t : Token) : Prop
  | spelled (h : t.Spelled)
  | comment (hkind : t.kind = .comment)
      (h : ∃ d rest, t.text.toList = '/' :: d :: rest ∧ (d = '/' ∨ d = '*'))
  | placemarker (hkind : t.kind = .placemarker)

/-- White space, a string literal, or what reads as one token. -/
theorem Spelled.cases_first (h : t.Spelled) :
    t.IsSpace ∨ (t.kind = .string ∧ BeginsString t.text.toList) ∨
      ∃ k a as, t.text.toList = a :: as ∧ first a as = .ok (k, as.length) ∧ k.isLayout = false := by
  cases h with
  | space h => exact .inl h
  | alone h hlayout =>
    obtain ⟨a, as, hu, hfirst⟩ := h.first_eq hlayout
    exact .inr (.inr ⟨t.kind, a, as, hu, hfirst, hlayout⟩)
  | string hkind h => exact .inr (.inl ⟨hkind, h⟩)
  | point hkind h => exact .inr (.inr ⟨.punctuator, '.', [], by rw [h]; rfl, by decide, rfl⟩)

/-- What begins as a string literal does is one, if it is a token. -/
theorem kind_of_beginsString (hbegins : BeginsString (c :: cs))
    (h : first c cs = .ok (kind, cs.length)) (hkind : kind.isLayout = false) : kind = .string := by
  have hliteral : ∀ {cs : List Char} {n : Nat}, literalLength '"' cs = .ok (kind, n) →
      kind = .string := by
    intro cs n h
    unfold literalLength at h
    split at h
    · cases h
    · cases h
      rfl
  obtain ⟨word, rest, hu, rfl | hword⟩ := hbegins
  · cases hu
    obtain ⟨hnumber, -⟩ | ⟨-, ⟨hname, -⟩ | ⟨-, ⟨-, h⟩ | ⟨hquote, -⟩⟩⟩ := first_cases h hkind
    · exact absurd hnumber (by simp [startsNumber]; decide)
    · exact absurd hname (by decide)
    · exact hliteral h
    · exact absurd (.inl rfl) hquote
  · cases word with
    | nil => exact absurd hword (by decide)
    | cons e word =>
      obtain ⟨rfl, rfl⟩ := List.cons.inj (hu.trans List.cons_append)
      have hstart := isNameStart_of_mem_encodingPrefixes _ hword c rfl
      have hspan : spanLength isNameChar word = word.length :=
        spanLength_eq_length_iff.mpr fun d hd =>
          isNameChar_of_mem_encodingPrefixes _ hword d (List.mem_cons_of_mem c hd)
      obtain ⟨hnumber, -⟩ | ⟨-, ⟨-, h⟩ | ⟨hname, -⟩⟩ := first_cases h hkind
      · rw [startsNumber, isDigit_of_isNameStart hstart, Bool.false_or, Bool.and_eq_true,
          decide_eq_true_eq] at hnumber
        obtain ⟨rfl, -⟩ := hnumber
        exact absurd hstart (by decide)
      · rw [nameLength_encoded hspan hword (.inl rfl)] at h
        obtain ⟨⟨kind', m⟩, hm, heq⟩ := map_eq_ok_iff.mp h
        obtain rfl : kind' = kind := congrArg Prod.fst heq
        exact hliteral hm
      · rw [hstart] at hname
        cases hname

theorem despliced_literal (hword : word = [] ∨ word ∈ encodingPrefixes) (rest : List Char) :
    despliced (word ++ '"' :: rest) = word ++ '"' :: despliced rest := by
  have hmem : '\\' ∉ word := by
    rcases hword with rfl | hword
    · exact List.not_mem_nil
    · exact fun hmem => absurd (isNameChar_of_mem_encodingPrefixes word hword _ hmem) (by decide)
  rw [despliced_append_of_not_goesOn fun hgoes => hmem hgoes.mem, despliced_of_not_mem hmem,
    despliced_cons (by decide)]

section
variable (hread : lexemes (despliced t.text.toList) = [.token t.kind text])
  (hlayout : t.isLayout = false)
include hread hlayout

theorem spelled_of_not_mem_newline (hmem : '\n' ∉ t.text.toList) : t.Spelled := by
  rw [despliced_of_not_mem_newline hmem] at hread
  obtain ⟨rfl, -⟩ := exists_first_of_lexemes hread hlayout
  exact .alone hread hlayout

theorem spelled_of_beginsString (hbegins : BeginsString t.text.toList) : t.Spelled := by
  refine .string ?_ hbegins
  obtain ⟨word, rest, hu, hword⟩ := hbegins
  obtain ⟨-, c, cs, hz, hfirst⟩ := exists_first_of_lexemes hread hlayout
  rw [hu, despliced_literal hword] at hz
  exact kind_of_beginsString ⟨word, _, hz.symm, hword⟩ hfirst hlayout

/-- What a token that reads as itself joins to with another spelling. A newline in that one is in a
string literal, which then begins what is read. -/
theorem Lexed.spelled_append_first (hr : r.Lexed) (hright : r.kind ≠ .placemarker)
    (ht : t.text.toList = a :: as ++ r.text.toList) (hk : first a as = .ok (k, as.length))
    (hklayout : k.isLayout = false) : t.Spelled := by
  have hclean : '\n' ∉ a :: as := not_mem_newline_of_first hk hklayout
  have hself : despliced (a :: as) = a :: as := despliced_of_not_mem_newline hclean
  obtain ⟨-, c, cs, hz, hfirst⟩ := exists_first_of_lexemes hread hlayout
  have hno : '\n' ∉ r.text.toList → t.Spelled := by
    intro hmem
    refine spelled_of_not_mem_newline hread hlayout ?_
    rw [ht, List.mem_append]
    exact not_or.mpr ⟨hclean, hmem⟩
  rw [ht] at hz
  cases hr with
  | placemarker hkind => exact absurd hkind hright
  | comment hkind hcomment =>
    obtain ⟨d, rest, hv, -⟩ := hcomment
    rw [hv, despliced_append_of_head (by rintro - e ⟨⟩; decide), hself, despliced_cons (by decide)]
      at hz
    obtain ⟨rfl, rfl⟩ := List.cons.inj (hz.symm.trans List.cons_append)
    exact (not_first_append_slash hk hklayout hfirst hlayout).elim
  | spelled h =>
    obtain hspace | ⟨-, word, rest, hv, hword⟩ | ⟨k', b, bs, hv, hk', hklayout'⟩ := h.cases_first
    · rcases hspace with ⟨-, hv⟩ | ⟨-, -, hblank⟩
      · have hvs : r.text.toList = ['\n'] := by
          rw [hv]
          rfl
        rw [hvs] at hz
        by_cases hgoes : GoesOn (a :: as)
        · have hbackslash : a :: as = ['\\'] := by
            by_contra hother
            exact not_goesOn_of_first hk hklayout (fun _ => hother) hgoes
          rw [hbackslash] at hz
          cases hz
        · rw [despliced_append_of_not_goesOn hgoes] at hz
          refine absurd ?_ (not_mem_newline_of_first hfirst hlayout)
          rw [← hz]
          exact List.mem_append_right _ List.mem_cons_self
      · exact hno fun hmem => absurd (hblank _ hmem) (by decide)
    · have hhead : ∀ e ∈ (word ++ '"' :: rest).head?, e ≠ '\n' ∧ e ≠ '\r' := by
        intro e he
        have hclass := head_literal hword he
        refine ⟨?_, ?_⟩
        · rintro rfl
          exact absurd hclass (by decide)
        · rintro rfl
          exact absurd hclass (by decide)
      rw [hv, despliced_append_of_head fun _ => hhead, hself, despliced_literal hword] at hz
      obtain ⟨rfl, rfl⟩ := List.cons.inj (hz.symm.trans List.cons_append)
      have hpre := mem_encodingPrefixes_of_first hk hklayout hword hfirst hlayout
      refine spelled_of_beginsString hread hlayout ⟨_, rest, ?_, .inr hpre⟩
      rw [ht, hv, List.append_assoc]
    · refine hno ?_
      rw [hv]
      exact not_mem_newline_of_first hk' hklayout'

/-- What two spellings join to, if it reads as one token. -/
theorem Lexed.spelled_append (hl : l.Lexed) (hr : r.Lexed) (hleft : l.kind ≠ .placemarker)
    (hright : r.kind ≠ .placemarker) (ht : t.text.toList = l.text.toList ++ r.text.toList) :
    t.Spelled := by
  obtain ⟨-, c, cs, hz, hfirst⟩ := exists_first_of_lexemes hread hlayout
  have hplain := NoLayout.of_first hfirst hlayout
  rw [ht] at hz
  cases hl with
  | placemarker hkind => exact absurd hkind hleft
  | comment hkind h =>
    obtain ⟨d, rest, hu, hd⟩ := h
    have hbackslash : d ≠ '\\' := by rcases hd with rfl | rfl <;> decide
    rw [hu, List.cons_append, List.cons_append, despliced_cons (by decide),
      despliced_cons hbackslash] at hz
    obtain ⟨rfl, rfl⟩ := List.cons.inj hz
    exact absurd hd (not_or.mpr (hplain.comment rfl d rfl))
  | spelled h =>
    obtain hspace | ⟨-, word, rest, hu, hword⟩ | ⟨k, a, as, hu, hk, hklayout⟩ := h.cases_first
    · obtain ⟨d, ds, hu, hstarts⟩ := h.starts
      have hd : isBlank d = true ∨ d = '\n' := by
        rcases hspace with ⟨hkind, -⟩ | ⟨hkind, -⟩
        · rwa [hkind] at hstarts
        · rwa [hkind] at hstarts
      have hbackslash : d ≠ '\\' := by
        rintro rfl
        exact absurd hd (by decide)
      rw [hu, List.cons_append, despliced_cons hbackslash] at hz
      obtain ⟨rfl, -⟩ := List.cons.inj hz
      rcases hd with hd | hd
      · rw [hplain.blank] at hd
        cases hd
      · exact absurd hd hplain.newline
    · refine spelled_of_beginsString hread hlayout ⟨word, rest ++ r.text.toList, ?_, hword⟩
      rw [ht, hu, List.append_assoc, List.cons_append]
    · exact hr.spelled_append_first hread hlayout hright (hu ▸ ht) hk hklayout

end

/-- Two operands of `##` that are spelled as tokens are join to one that is. -/
theorem Lexed.paste (hl : l.Lexed) (hr : r.Lexed) {site : Location}
    (h : l.paste? r site = some t) : t.Lexed := by
  rcases cases_of_paste? h with rfl | rfl | ⟨hleft, hright, kind, text, hread, hlayout, rfl⟩
  · exact hr
  · exact hl
  · have htext : (l.text ++ r.text).toList = l.text.toList ++ r.text.toList := String.toList_append
    rw [← htext] at hread
    exact .spelled (hl.spelled_append hread hlayout hr hleft hright htext)

end Token

end CPreprocessor
