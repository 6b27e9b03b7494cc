import Mathlib.Data.List.Chain
import CPreprocessor.Proofs.Source.Content
import CPreprocessor.Render

/-!
# Separated tokens

A blank is printed wherever two tokens would be read as something else, except between a word and a
literal with an encoding (`Token.Glues`). Everywhere else what is printed after a token does not go
on with it, however many tokens follow without space between them (`Token.stops_renderAfter`).
-/

namespace CPreprocessor

open Lexeme

namespace Token

variable {t l r : Token} {ts : List Token}

/-- Whether the spelling of a token reads as this token alone. -/
def Alone (t : Token) : Prop := lexemes t.text.toList = [.token t.kind t.text.toList]

/-- Whether a token is a line end or a run of blanks. -/
def IsSpace (t : Token) : Prop :=
  t.kind = .newline ∧ t.text = "\n" ∨
    t.kind = .whitespace ∧ t.text ≠ "" ∧ ∀ c ∈ t.text.toList, isBlank c = true

/-- Whether a text begins as a string literal does, with an encoding or without one. -/
def BeginsString (u : List Char) : Prop :=
  ∃ word rest, u = word ++ '"' :: rest ∧ (word = [] ∨ word ∈ encodingPrefixes)

/-- How a printed token may be spelled: as white space, as what it reads as, as a string literal
that need not be one, or as the point of a number whose digits are not its own. -/
inductive Spelled (t : Token) : Prop
  | space (h : t.IsSpace)
  | alone (h : t.Alone) (hlayout : t.isLayout = false)
  | string (hkind : t.kind = .string) (h : BeginsString t.text.toList)
  | point (hkind : t.kind = .number) (h : t.text = ".")

/-- Whether a word and a literal with an encoding are printed side by side. -/
def Glues (l r : Token) : Prop :=
  (l.kind = .identifier ∨ l.kind = .number) ∧ (r.kind = .string ∨ r.kind = .character) ∧
    (∃ c ∈ r.text.toList.head?, isNameStart c = true) ∧ l.needsSeparator r = false

instance : DecidablePred Alone := fun _ => inferInstanceAs (Decidable (_ = _))

instance (l r : Token) : Decidable (Glues l r) :=
  have : Decidable (∃ c ∈ r.text.toList.head?, isNameStart c = true) :=
    decidable_of_iff (r.text.toList.head?.any isNameStart = true) (Option.any_eq_true ..)
  inferInstanceAs (Decidable (_ ∧ _ ∧ _ ∧ _))

theorem Alone.first_eq (h : t.Alone) (hlayout : t.isLayout = false) :
    ∃ c cs, t.text.toList = c :: cs ∧ first c cs = .ok (t.kind, cs.length) := by
  rw [Alone] at h
  cases hu : t.text.toList with
  | nil =>
    rw [hu, lexemes] at h
    cases h
  | cons c cs =>
    refine ⟨c, cs, rfl, ?_⟩
    rw [hu, lexemes] at h
    cases hfirst : first c cs with
    | error cause =>
      rw [hfirst] at h
      cases h
    | ok kn =>
      obtain ⟨kind, n⟩ := kn
      rw [hfirst] at h
      obtain ⟨heq, -⟩ := List.cons.inj h
      injection heq with hkind htext
      subst hkind
      have hle := first_le hfirst hlayout
      have hlength := congrArg List.length (List.cons.inj htext).2
      rw [List.length_take_of_le hle] at hlength
      rw [hlength]

theorem alone_of_first {c : Char} {cs : List Char} (hu : t.text.toList = c :: cs)
    (h : first c cs = .ok (t.kind, cs.length)) : t.Alone := by
  rw [Alone, hu, lexemes, h]
  simp only
  rw [List.take_length, List.drop_length, lexemes]

/-! ## The first character -/

/-- What a token's kind says about the first characters of its spelling. -/
def Starts (c : Char) (cs : List Char) : Kind → Prop
  | .identifier => isNameStart c = true
  | .number => Text.isDigit c = true ∨ c = '.' ∧ ∀ d ∈ cs.head?, Text.isDigit d = true
  | .string | .character => IsQuote c ∨ isNameStart c = true
  | .punctuator => c :: cs ∈ punctuators
  | .other => [c] ∉ punctuators ∧ Text.isDigit c = false ∧ isNameStart c = false ∧ ¬ IsQuote c
  | .newline | .whitespace => isBlank c = true ∨ c = '\n'
  | _ => False

theorem starts_of_first {c : Char} {cs : List Char} {kind : Kind} {n : Nat}
    (h : first c cs = .ok (kind, n)) (hkind : kind.isLayout = false) : Starts c (cs.take n) kind := by
  obtain ⟨hnumber, rfl, -⟩ | ⟨hnumber, ⟨hname, h⟩ | ⟨hname, ⟨hquote, h⟩ | ⟨hquote, h⟩⟩⟩ :=
    first_cases h hkind
  · simp only [startsNumber, Bool.or_eq_true, Bool.and_eq_true, decide_eq_true_eq] at hnumber
    refine hnumber.imp_right fun hpoint => ⟨hpoint.1, fun d hd => ?_⟩
    have hany := hpoint.2
    obtain ⟨ds, hds⟩ := List.head?_eq_some_iff.mp hd
    obtain ⟨ds, rfl⟩ := hds ▸ List.take_prefix n cs
    exact hany
  · rcases kind_of_nameLength h with rfl | rfl | rfl
    · exact hname
    · exact .inr hname
    · exact .inr hname
  · rcases kind_of_literalLength h with rfl | rfl
    · exact .inl hquote
    · exact .inl hquote
  · obtain ⟨hc, hother⟩ | ⟨u, hu, ⟨w, rfl⟩, hlength, -⟩ := punctuatorLength_cases c cs
    · rw [hother] at h
      obtain rfl : Kind.other = kind := congrArg Prod.fst h
      rw [startsNumber, Bool.or_eq_false_iff] at hnumber
      exact ⟨hc, hnumber.1, hname, hquote⟩
    · rw [hlength] at h
      cases h
      rw [List.take_left]
      exact hu

theorem Spelled.starts (h : t.Spelled) : ∃ c cs, t.text.toList = c :: cs ∧ Starts c cs t.kind := by
  cases h with
  | space h =>
    rcases h with ⟨hkind, htext⟩ | ⟨hkind, hne, hblank⟩
    · exact ⟨'\n', [], by rw [htext]; rfl, by rw [hkind]; exact .inr rfl⟩
    · cases hu : t.text.toList with
      | nil => exact absurd (String.toList_eq_nil_iff.mp hu) hne
      | cons c cs =>
        rw [hu] at hblank
        exact ⟨c, cs, rfl, by rw [hkind]; exact .inl (hblank c List.mem_cons_self)⟩
  | alone h hlayout =>
    obtain ⟨c, cs, hu, hfirst⟩ := h.first_eq hlayout
    exact ⟨c, cs, hu, by simpa only [List.take_length] using starts_of_first hfirst hlayout⟩
  | string hkind h =>
    obtain ⟨word, rest, hu, rfl | hword⟩ := h
    · exact ⟨'"', rest, hu, by rw [hkind]; exact .inl (.inl rfl)⟩
    · cases word with
      | nil => exact absurd hword (by decide)
      | cons c word =>
        refine ⟨c, word ++ '"' :: rest, hu, ?_⟩
        rw [hkind]
        exact .inr (isNameStart_of_mem_encodingPrefixes _ hword c rfl)
  | point hkind h =>
    exact ⟨'.', [], by rw [h]; rfl, by rw [hkind]; exact .inr ⟨rfl, nofun⟩⟩

theorem Spelled.isPrinted (h : t.Spelled) : t.isPrinted = true := by
  obtain ⟨c, cs, -, hstarts⟩ := h.starts
  rw [Token.isPrinted, Bool.and_eq_true, decide_eq_true_eq, decide_eq_true_eq]
  refine ⟨fun hkind => ?_, fun hkind => ?_⟩
  · rw [hkind] at hstarts
    exact hstarts
  · rw [hkind] at hstarts
    exact hstarts

namespace Starts

variable {c : Char} {cs : List Char} {kind : Kind}

/-- Only words, numbers and literals with an encoding begin with a character of a word. -/
theorem not_isNameChar (h : Starts c cs kind) (hidentifier : kind ≠ .identifier)
    (hnumber : kind ≠ .number)
    (hliteral : kind = .string ∨ kind = .character → isNameStart c = false) :
    isNameChar c = false := by
  have hquote : IsQuote c ∨ isNameStart c = true → isNameStart c = false → isNameChar c = false :=
    fun h hname => (h.resolve_right (Bool.eq_false_iff.mp hname)).not_isNameChar
  cases kind with
  | identifier => exact absurd rfl hidentifier
  | number => exact absurd rfl hnumber
  | string => exact hquote h (hliteral (.inl rfl))
  | character => exact hquote h (hliteral (.inr rfl))
  | punctuator => exact (class_of_mem_punctuators _ h c List.mem_cons_self).2.1
  | other =>
    rw [isNameChar, h.2.2.1, Bool.false_or]
    exact Bool.eq_false_iff.mpr fun hdigit => Bool.eq_false_iff.mp h.2.1 (isDigit_of_isDigit hdigit)
  | newline => exact (space_cases h).2.1
  | whitespace => exact (space_cases h).2.1
  | endOfInput => exact h.elim
  | comment => exact h.elim
  | placemarker => exact h.elim

/-- Only numbers begin with a digit. -/
theorem isDigit (h : Starts c cs kind) (hkind : kind ≠ .number) : Text.isDigit c = false := by
  have hliteral : IsQuote c ∨ isNameStart c = true → Text.isDigit c = false := by
    rintro (hquote | hname)
    · exact (isQuote_cases hquote).2.2
    · exact isDigit_of_isNameStart hname
  cases kind with
  | number => exact absurd rfl hkind
  | identifier => exact isDigit_of_isNameStart h
  | string => exact hliteral h
  | character => exact hliteral h
  | punctuator => exact (class_of_mem_punctuators _ h c List.mem_cons_self).2.2
  | other => exact h.2.1
  | newline => exact (space_cases h).2.2.1
  | whitespace => exact (space_cases h).2.2.1
  | endOfInput => exact h.elim
  | comment => exact h.elim
  | placemarker => exact h.elim

/-- Only punctuators begin with one, but for the point of a number. -/
theorem punctuator (h : Starts c cs kind) (hc : [c] ∈ punctuators) :
    kind = .punctuator ∨ kind = .number ∧ c = '.' := by
  have hsingle := class_of_mem_punctuators [c] hc c List.mem_cons_self
  have hname : isNameStart c = false := by
    have := hsingle.2.1
    rw [isNameChar, Bool.or_eq_false_iff] at this
    exact this.1
  have hliteral : ¬ (IsQuote c ∨ isNameStart c = true) := by
    rintro (hquote | hstart)
    · exact (isQuote_cases hquote).1 hc
    · rw [hname] at hstart
      cases hstart
  cases kind with
  | number =>
    refine .inr ⟨rfl, (h.resolve_left fun hdigit => ?_).1⟩
    rw [hsingle.2.2] at hdigit
    cases hdigit
  | identifier =>
    rw [Starts, hname] at h
    cases h
  | string => exact absurd h hliteral
  | character => exact absurd h hliteral
  | punctuator => exact .inl rfl
  | other => exact absurd hc h.1
  | newline => exact absurd hc (space_cases h).1
  | whitespace => exact absurd hc (space_cases h).1
  | endOfInput => exact h.elim
  | comment => exact h.elim
  | placemarker => exact h.elim

/-- Only literals begin with a quotation mark. -/
theorem not_isQuote (h : Starts c cs kind) (hstring : kind ≠ .string) (hcharacter : kind ≠ .character) :
    ¬ IsQuote c := by
  cases kind with
  | number =>
    rintro hquote
    rcases h with hdigit | ⟨rfl, -⟩
    · rw [(isQuote_cases hquote).2.2] at hdigit
      cases hdigit
    · exact absurd hquote (by decide)
  | identifier =>
    rintro hquote
    have hname := hquote.not_isNameChar
    rw [isNameChar, h] at hname
    cases hname
  | string => exact absurd rfl hstring
  | character => exact absurd rfl hcharacter
  | punctuator =>
    intro hquote
    exact (isQuote_cases hquote).1 (class_of_mem_punctuators _ h c List.mem_cons_self).1
  | other => exact h.2.2.2
  | newline => exact (space_cases h).2.2.2
  | whitespace => exact (space_cases h).2.2.2
  | endOfInput => exact h.elim
  | comment => exact h.elim
  | placemarker => exact h.elim

end Starts

/-! ## Tokens without a blank between them -/

section
variable {a b : Char} {as bs : List Char}

theorem needsSeparator_words (hl : l.text.toList = a :: as) (hr : r.text.toList = b :: bs)
    (hleft : l.kind = .identifier ∨ l.kind = .number)
    (hright : r.kind = .identifier ∨ r.kind = .number) : l.needsSeparator r = true := by
  rcases hleft with hleft | hleft <;> rcases hright with hright | hright <;>
    simp only [needsSeparator, hl, hr, hleft, hright]

theorem not_prefix_of_needsSeparator (h : l.needsSeparator r = false) (hl : l.text.toList = a :: as)
    (hr : r.text.toList = b :: bs) (hleft : l.kind = .identifier)
    (hright : r.kind = .string ∨ r.kind = .character) : a :: as ∉ encodingPrefixes := by
  have hcontains : encodingPrefixes.contains (a :: as) = false := by
    rcases hright with hright | hright
    · simpa only [needsSeparator, hl, hr, hleft, hright] using h
    · simpa only [needsSeparator, hl, hr, hleft, hright] using h
  intro hmem
  rw [List.contains_iff_mem.mpr hmem] at hcontains
  cases hcontains

theorem number_of_needsSeparator (h : l.needsSeparator r = false) (hl : l.text.toList = a :: as)
    (hr : r.text.toList = b :: bs) (hleft : l.kind = .number) (hright : r.isLayout = false) :
    b ≠ '.' ∧ ∀ e ∈ (a :: as).getLast?, isExponentMark e = true → isSign b = false := by
  have hwords : ¬ (r.kind = .identifier ∨ r.kind = .number) := by
    intro hright
    rw [needsSeparator_words hl hr (.inr hleft) hright] at h
    cases h
  have hjoin : (b == '.' || (isExponentMark ((a :: as).getLastD a) && isSign b)) = false := by
    have hlayout : r.kind.isLayout = false := hright
    cases hkind : r.kind <;>
      simp_all only [needsSeparator, not_or, reduceCtorEq, Bool.not_false, Bool.true_and,
        Kind.isLayout]
  rw [Bool.or_eq_false_iff, beq_eq_false_iff_ne] at hjoin
  refine ⟨hjoin.1, fun e he hmark => ?_⟩
  have hlast : (a :: as).getLastD a = e := by
    rw [List.getLastD_eq_getLast?, Option.mem_def.mp he]
    rfl
  rw [hlast, hmark, Bool.true_and] at hjoin
  exact hjoin.2

theorem point_of_needsSeparator (h : l.needsSeparator r = false) (hl : l.text.toList = ['.'])
    (hr : r.text.toList = b :: bs) (hleft : l.kind = .punctuator) (hright : r.kind = .number) :
    Text.isDigit b = false := by
  simpa only [needsSeparator, hl, hr, hleft, hright, beq_self_eq_true, List.isEmpty_nil,
    Bool.true_and] using h

theorem punctuator_of_needsSeparator (h : l.needsSeparator r = false) (hl : l.text.toList = a :: as)
    (hr : r.text.toList = b :: bs) (hleft : l.kind = .punctuator) (hright : r.kind = .punctuator) :
    (a :: as = ['/'] → b ≠ '/' ∧ b ≠ '*') ∧
      ∀ p ∈ punctuators, (a :: as).length < p.length → ¬ a :: as ++ [b] <+: p := by
  simp only [needsSeparator, hl, hr, hleft, hright, Bool.or_eq_false_iff, beq_eq_false_iff_ne,
    List.any_eq_false, Bool.and_eq_true, decide_eq_true_eq, List.isPrefixOf_iff_prefix] at h
  obtain ⟨⟨hline, hblock⟩, hlonger⟩ := h
  refine ⟨fun heq => ?_, fun p hp hlength hpre => hlonger p hp ⟨hlength, hpre⟩⟩
  rw [heq] at hline hblock
  refine ⟨?_, ?_⟩
  · rintro rfl
    exact hline rfl
  · rintro rfl
    exact hblock rfl

end

/-! ## What follows a token -/

/-- A token that is printed begins with a blank, or with its own first character. -/
theorem renderAfter_cases (hts : ∀ t ∈ ts, t.Spelled) (l : Token) :
    renderAfter l ts = [] ∨ (∃ w, renderAfter l ts = ' ' :: w) ∨
      ∃ r rest b bs, ts = r :: rest ∧ l.needsSeparator r = false ∧ r.text.toList = b :: bs ∧
        Starts b bs r.kind ∧ renderAfter l ts = b :: (bs ++ renderAfter r rest) := by
  cases ts with
  | nil => exact .inl rfl
  | cons r rest =>
    right
    rw [renderAfter]
    split
    · exact .inl ⟨_, rfl⟩
    · rename_i hseparator
      obtain ⟨b, bs, hr, hstarts⟩ := (hts r List.mem_cons_self).starts
      refine .inr ⟨r, rest, b, bs, rfl, Bool.eq_false_iff.mpr hseparator, hr, hstarts, ?_⟩
      rw [hr, List.cons_append]

section
variable {a d : Char} {as : List Char}

/-- After a word, a word comes only after a blank. -/
theorem not_word_of_head (hl : l.text.toList = a :: as) (hword : l.kind = .identifier ∨ l.kind = .number)
    (hts : ∀ t ∈ ts, t.Spelled) (hd : d ∈ (renderAfter l ts).head?) :
    d = ' ' ∨ ∃ r rest ds, ts = r :: rest ∧ l.needsSeparator r = false ∧ r.text.toList = d :: ds ∧
      Starts d ds r.kind ∧ r.kind ≠ .identifier ∧ r.kind ≠ .number := by
  obtain hnil | ⟨w, hblank⟩ | ⟨r, rest, b, bs, rfl, hseparator, hr, hstarts, hrender⟩ :=
    renderAfter_cases hts l
  · rw [hnil] at hd
    cases hd
  · rw [hblank] at hd
    cases hd
    exact .inl rfl
  · rw [hrender] at hd
    cases hd
    have hother : ¬ (r.kind = .identifier ∨ r.kind = .number) := by
      intro hright
      rw [needsSeparator_words hl hr hword hright] at hseparator
      cases hseparator
    exact .inr ⟨r, rest, bs, rfl, hseparator, hr, hstarts, not_or.mp hother⟩

theorem isNameChar_of_head (hl : l.text.toList = a :: as)
    (hword : l.kind = .identifier ∨ l.kind = .number) (hts : ∀ t ∈ ts, t.Spelled)
    (hglue : ∀ r ∈ ts.head?, ¬ l.Glues r) (hd : d ∈ (renderAfter l ts).head?) :
    isNameChar d = false := by
  obtain rfl | ⟨r, rest, ds, rfl, hseparator, hr, hstarts, hidentifier, hnumber⟩ :=
    not_word_of_head hl hword hts hd
  · decide
  · refine hstarts.not_isNameChar hidentifier hnumber fun hliteral => ?_
    refine Bool.eq_false_iff.mpr fun hname => hglue r rfl ⟨hword, hliteral, ?_, hseparator⟩
    exact ⟨d, by rw [hr]; rfl, hname⟩

theorem not_isQuote_of_head (hl : l.text.toList = a :: as) (hkind : l.kind = .identifier)
    (hpre : a :: as ∈ encodingPrefixes) (hts : ∀ t ∈ ts, t.Spelled)
    (hd : d ∈ (renderAfter l ts).head?) : ¬ IsQuote d := by
  obtain rfl | ⟨r, rest, ds, rfl, hseparator, hr, hstarts, -, -⟩ :=
    not_word_of_head hl (.inl hkind) hts hd
  · decide
  · have hliteral : ¬ (r.kind = .string ∨ r.kind = .character) := fun hright =>
      not_prefix_of_needsSeparator hseparator hl hr hkind hright hpre
    obtain ⟨hstring, hcharacter⟩ := not_or.mp hliteral
    exact hstarts.not_isQuote hstring hcharacter

theorem number_of_head (hl : l.text.toList = a :: as) (hkind : l.kind = .number)
    (hts : ∀ t ∈ ts, t.Spelled) (hd : d ∈ (renderAfter l ts).head?) :
    d ≠ '.' ∧ ∀ e ∈ (a :: as).getLast?, isExponentMark e = true → isSign d = false := by
  obtain rfl | ⟨r, rest, ds, rfl, hseparator, hr, hstarts, -, hnumber⟩ :=
    not_word_of_head hl (.inr hkind) hts hd
  · exact ⟨by decide, fun _ _ _ => by decide⟩
  cases hlayout : r.isLayout with
  | false => exact number_of_needsSeparator hseparator hl hr hkind hlayout
  | true =>
    -- White space begins no punctuator, and points and signs are punctuators.
    have hnot : [d] ∉ punctuators := by
      intro hd
      rcases hstarts.punctuator hd with hright | hright
      · rw [isLayout, hright] at hlayout
        cases hlayout
      · exact hnumber hright.1
    refine ⟨?_, fun _ _ _ => Bool.eq_false_iff.mpr fun hsign => ?_⟩
    · rintro rfl
      exact hnot (by decide)
    · rw [isSign, Bool.or_eq_true, beq_iff_eq, beq_iff_eq] at hsign
      rcases hsign with rfl | rfl
      · exact hnot (by decide)
      · exact hnot (by decide)

end

/-- A longer punctuator goes on with the next character. -/
theorem exists_longer {u w p : List Char} (hlength : u.length < p.length) (h : p <+: u ++ w) :
    ∃ d v v', w = d :: v ∧ p = u ++ d :: v' ∧ v' <+: v := by
  obtain ⟨q, rfl⟩ := List.prefix_of_prefix_length_le (List.prefix_append u w) h (Nat.le_of_lt hlength)
  have hq := (List.prefix_append_right_inj u).mp h
  cases q with
  | nil =>
    rw [List.append_nil] at hlength
    exact absurd hlength (Nat.lt_irrefl _)
  | cons d v' =>
    obtain ⟨v, rfl⟩ := hq
    exact ⟨d, v' ++ v, v', rfl, rfl, List.prefix_append v' v⟩

/-- Only an ellipsis goes on with a point. -/
theorem eq_ellipsis : ∀ p ∈ punctuators, '.' ∈ p.tail → p = ['.', '.', '.'] := by decide

theorem stops_of_head {u w : List Char}
    (h : ∀ d ∈ w.head?, [d] ∉ punctuators ∧ Text.isDigit d = false) : Stops .punctuator u w := by
  refine ⟨fun _ d hd => ⟨?_, ?_⟩, fun _ d hd => (h d hd).2, fun p hp hlength hpre => ?_⟩
  · rintro rfl
    exact (h '/' hd).1 (by decide)
  · rintro rfl
    exact (h '*' hd).1 (by decide)
  · obtain ⟨d, v, v', rfl, rfl, -⟩ := exists_longer hlength hpre
    exact (h d rfl).1 (class_of_mem_punctuators _ hp d (by simp)).1

/-- What follows a punctuator does not go on with it. -/
theorem stops_punctuator {a : Char} {as : List Char} (hl : l.text.toList = a :: as)
    (hmem : a :: as ∈ punctuators) (hkind : l.kind = .punctuator) (hts : ∀ t ∈ ts, t.Spelled) :
    Stops .punctuator (a :: as) (renderAfter l ts) := by
  obtain hnil | ⟨w, hblank⟩ | ⟨r, rest, b, bs, rfl, hseparator, hr, hstarts, hrender⟩ :=
    renderAfter_cases hts l
  · exact stops_of_head (by rw [hnil]; exact nofun)
  · refine stops_of_head ?_
    rw [hblank]
    rintro d ⟨⟩
    decide
  rw [hrender]
  by_cases hpunctuator : r.kind = .punctuator
  · obtain ⟨hslash, hlonger⟩ := punctuator_of_needsSeparator hseparator hl hr hkind hpunctuator
    refine ⟨?_, ?_, fun p hp hlength hpre => ?_⟩
    · rintro heq d ⟨⟩
      exact hslash heq
    · rintro - d ⟨⟩
      exact hstarts.isDigit (by rw [hpunctuator]; exact nofun)
    · obtain ⟨d, v, v', hw, rfl, -⟩ := exists_longer hlength hpre
      obtain ⟨rfl, -⟩ := List.cons.inj hw
      exact hlonger _ hp hlength ⟨v', by simp⟩
  by_cases hnumber : r.kind = .number
  · have hpoint : [b] ∈ punctuators → b = '.' :=
      fun hb => ((hstarts.punctuator hb).resolve_left hpunctuator).2
    refine ⟨?_, ?_, fun p hp hlength hpre => ?_⟩
    · rintro - d ⟨⟩
      refine ⟨?_, ?_⟩
      · rintro rfl
        exact absurd (hpoint (by decide)) (by decide)
      · rintro rfl
        exact absurd (hpoint (by decide)) (by decide)
    · rintro heq d ⟨⟩
      exact point_of_needsSeparator hseparator (by rw [hl, heq]) hr hkind hnumber
    · obtain ⟨d, v, v', hw, rfl, hv⟩ := exists_longer hlength hpre
      obtain ⟨rfl, rfl⟩ := List.cons.inj hw
      obtain rfl := hpoint (class_of_mem_punctuators _ hp b (by simp)).1
      have heq := eq_ellipsis _ hp (by simp)
      obtain rfl : v' = ['.'] := by
        cases as with
        | nil => exact (List.cons.inj (List.cons.inj heq).2).2
        | cons e as =>
          cases as with
          | nil =>
            cases heq
            exact absurd hmem (by decide)
          | cons f as => simp at heq
      cases bs with
      | nil =>
        obtain ⟨v, hv⟩ := hv
        rw [List.nil_append] at hv
        have hhead : '.' ∈ (renderAfter r rest).head? := by
          rw [← hv]
          rfl
        exact (number_of_head hr hnumber (List.forall_mem_cons.mp hts).2 hhead).1 rfl
      | cons e bs =>
        obtain ⟨rfl, -⟩ := List.cons_prefix_cons.mp hv
        rw [hnumber] at hstarts
        rcases hstarts with hdigit | ⟨-, hdigit⟩
        · exact absurd hdigit (by decide)
        · exact absurd (hdigit '.' rfl) (by decide)
  · refine stops_of_head ?_
    rintro d ⟨⟩
    refine ⟨fun hb => ?_, hstarts.isDigit hnumber⟩
    rcases hstarts.punctuator hb with hkind | hpoint
    · exact hpunctuator hkind
    · exact hnumber hpoint.1

/-- What follows a token does not go on with it, but for a literal with an encoding after a word. -/
theorem stops_renderAfter (hl : l.Spelled) (hts : ∀ t ∈ ts, t.Spelled)
    (hglue : ∀ r ∈ ts.head?, ¬ l.Glues r) : Stops l.kind l.text.toList (renderAfter l ts) := by
  obtain ⟨a, as, hu, hstarts⟩ := hl.starts
  rw [hu]
  cases hkind : l.kind with
  | identifier =>
    exact ⟨fun d => isNameChar_of_head hu (.inl hkind) hts hglue,
      fun hpre d => not_isQuote_of_head hu hkind hpre hts⟩
  | number =>
    exact ⟨fun d hd => ⟨isNameChar_of_head hu (.inr hkind) hts hglue hd,
        (number_of_head hu hkind hts hd).1⟩,
      fun e he hmark d hd => (number_of_head hu hkind hts hd).2 e he hmark⟩
  | punctuator =>
    rw [hkind] at hstarts
    exact stops_punctuator hu hstarts hkind hts
  | _ => exact trivial

end Token

end CPreprocessor
