import Mathlib
import CPreprocessor.Proofs.Render.Separation

/-!
# Tokens that are read side by side

The tokens of a text are read from their spellings, one after the other (`Source.sideBySide_tokens`).
What comes after a token that was read does not go on with it (`Lexeme.stops_of_first`). This is the
converse of `Lexeme.first_append_of_stops`, so nothing else is asked of two neighbours.
-/

namespace CPreprocessor

open Lexeme

/-! ## What comes after a lexeme -/

namespace Lexeme

variable {c : Char} {cs w : List Char} {kind : Kind} {n : Nat}

/-- A lexeme ends within its text. -/
theorem le_length_of_first (h : first c cs = .ok (kind, n)) : n ≤ cs.length := by
  cases hkind : kind.isLayout with
  | false => exact first_le h hkind
  | true =>
    obtain ⟨-, -, rfl⟩ | ⟨-, -, -, rfl⟩ | ⟨-, -, d, rest, m, rfl, rfl, ⟨-, rfl⟩ | ⟨-, hm⟩⟩ :=
      first_layout_cases h hkind
    · exact Nat.zero_le _
    · exact spanLength_le isBlank cs
    · exact Nat.succ_le_succ (spanLength_le _ rest)
    · exact Nat.succ_le_succ (commentLength_le hm)

/-- After an exponent mark at its end a number does not stop before a sign. -/
theorem numberLength_sign (cs : List Char) :
    ∀ e ∈ (cs.take (numberLength cs)).getLast?, isExponentMark e = true →
      ∀ d ∈ (cs.drop (numberLength cs)).head?, isSign d = false := by
  fun_induction numberLength cs with
  | case1 => rintro e ⟨⟩
  | case2 c hc => rintro e - - d ⟨⟩
  | case3 c hc => rintro e ⟨⟩
  | case4 c d cs hmark ih =>
    rw [List.take_succ_cons, List.take_succ_cons, List.drop_succ_cons, List.drop_succ_cons,
      List.getLast?_cons_cons, List.getLast?_cons]
    cases hlast : (cs.take (numberLength cs)).getLast? with
    | none =>
      -- the sign itself is the last character of the number, and no exponent mark
      rintro e ⟨⟩ hexponent
      rw [Bool.and_eq_true, isSign, Bool.or_eq_true, beq_iff_eq, beq_iff_eq] at hmark
      rcases hmark.2 with rfl | rfl <;> cases hexponent
    | some e => exact fun e he => ih e (hlast.trans he)
  | case5 c d cs hmark hc ih =>
    rw [List.take_succ_cons, List.drop_succ_cons, List.getLast?_cons]
    cases hn : numberLength (d :: cs) with
    | zero =>
      rintro e ⟨⟩ hexponent f ⟨⟩
      have hexponent : isExponentMark c = true := hexponent
      rwa [hexponent, Bool.true_and, Bool.not_eq_true] at hmark
    | succ n =>
      rw [hn] at ih
      cases hlast : ((d :: cs).take (n + 1)).getLast? with
      | none => cases List.getLast?_eq_none_iff.mp hlast
      | some e => exact fun e he => ih e (hlast.trans he)
  | case6 => rintro e ⟨⟩

/-- What comes after a token that was read does not go on with it. -/
theorem stops_of_first (h : first c cs = .ok (kind, n)) (hkind : kind.isLayout = false) :
    Stops kind (c :: cs.take n) (cs.drop n) := by
  cases kind with
  | identifier =>
    obtain ⟨word, after, rfl, -, ⟨-, rfl, hstop, hpre⟩ | ⟨-, quote, rest, m, -, -, hliteral, -⟩⟩ :=
      nameLength_cases (nameLength_of_first h)
    · rw [List.take_left, List.drop_left]
      exact ⟨hstop, hpre⟩
    · rcases kind_of_literalLength hliteral with hkind | hkind <;> cases hkind
  | number =>
    obtain ⟨hstarts, rfl⟩ := startsNumber_of_first h
    refine ⟨numberLength_stop cs, fun e he hexponent => ?_⟩
    rw [List.getLast?_cons] at he
    cases hlast : (cs.take (numberLength cs)).getLast? with
    | none =>
      -- the number is its first character, a digit or a point
      rw [hlast] at he
      cases he
      have hmark : ∀ d, isExponentMark d = true → Text.isDigit d = false ∧ d ≠ '.' := by
        intro d hd
        simp only [isExponentMark, Bool.or_eq_true, beq_iff_eq] at hd
        rcases hd with ((rfl | rfl) | rfl) | rfl <;> exact ⟨by decide, by decide⟩
      obtain ⟨hdigit, hpoint⟩ := hmark c hexponent
      rw [startsNumber, hdigit, Bool.false_or, decide_eq_false hpoint, Bool.false_and] at hstarts
      cases hstarts
    | some e' =>
      rw [hlast] at he
      cases he
      exact numberLength_sign cs e' hlast hexponent
  | punctuator =>
    have hplain := NoLayout.of_first h hkind
    obtain ⟨-, hnumber, -⟩ | ⟨hnumber, ⟨-, h⟩ | ⟨-, ⟨-, h⟩ | ⟨-, h⟩⟩⟩ := first_cases h hkind
    · cases hnumber
    · rcases kind_of_nameLength h with h | h | h <;> cases h
    · rcases kind_of_literalLength h with h | h <;> cases h
    obtain ⟨-, hother⟩ | ⟨u, hu, ⟨w, rfl⟩, hlength, hmax⟩ := punctuatorLength_cases c cs
    · rw [hother] at h
      cases h
    rw [hlength] at h
    cases h
    rw [List.take_left, List.drop_left]
    refine ⟨fun heq => ?_, fun heq d hd => ?_, fun p hp hlt hpre => ?_⟩
    · obtain ⟨rfl, rfl⟩ := List.cons.inj heq
      exact hplain.comment rfl
    · obtain ⟨rfl, rfl⟩ := List.cons.inj heq
      rw [startsNumber, Bool.or_eq_false_iff, decide_eq_true rfl, Bool.true_and, List.nil_append] at hnumber
      exact Option.any_eq_false .. |>.mp hnumber.2 d hd
    · exact hmax p hp hlt hpre
  | string => exact trivial
  | character => exact trivial
  | other => exact trivial
  | endOfInput => exact trivial
  | placemarker => exact trivial
  | newline => cases hkind
  | whitespace => cases hkind
  | comment => cases hkind

/-- A text goes on with a token no more than another one that has all its beginnings without a blank,
or all those without a newline. -/
theorem Stops.of_prefixes {u w w' : List Char} {b : Char} (hb : b = ' ' ∨ b = '\n')
    (h : Stops kind u w) (hw : ∀ q, b ∉ q → q <+: w' → q <+: w) : Stops kind u w' := by
  obtain ⟨hpunctuator, hname, hdigit, hquote⟩ :=
    space_cases (hb.imp_left fun hb => show isBlank b = true by rw [hb]; rfl)
  have hmark : b ≠ '.' ∧ isSign b = false ∧ b ≠ '/' ∧ b ≠ '*' := by
    rcases hb with rfl | rfl <;> decide
  have hhead : ∀ d ∈ w'.head?, d = b ∨ d ∈ w.head? := by
    intro d hd
    by_cases hblank : d = b
    · exact .inl hblank
    · obtain ⟨rest, rfl⟩ := List.head?_eq_some_iff.mp hd
      obtain ⟨rest', rfl⟩ := hw [d] (fun hmem => hblank (List.mem_singleton.mp hmem).symm)
        (List.cons_prefix_cons.mpr ⟨rfl, List.nil_prefix⟩)
      exact .inr rfl
  cases kind with
  | identifier =>
    refine ⟨fun d hd => ?_, fun hpre d hd => ?_⟩
    · obtain rfl | hd := hhead d hd
      · exact hname
      · exact h.1 d hd
    · obtain rfl | hd := hhead d hd
      · exact hquote
      · exact h.2 hpre d hd
  | number =>
    refine ⟨fun d hd => ?_, fun e he hexponent d hd => ?_⟩
    · obtain rfl | hd := hhead d hd
      · exact ⟨hname, hmark.1⟩
      · exact h.1 d hd
    · obtain rfl | hd := hhead d hd
      · exact hmark.2.1
      · exact h.2 e he hexponent d hd
  | punctuator =>
    refine ⟨fun hu d hd => ?_, fun hu d hd => ?_, fun p hp hlength hpre => ?_⟩
    · obtain rfl | hd := hhead d hd
      · exact hmark.2.2
      · exact h.1 hu d hd
    · obtain rfl | hd := hhead d hd
      · exact hdigit
      · exact h.2.1 hu d hd
    · obtain ⟨d, v, v', rfl, rfl, hv⟩ := Token.exists_longer hlength hpre
      have hblank : b ∉ d :: v' := fun hmem =>
        hpunctuator (class_of_mem_punctuators _ hp b (List.mem_append_right u hmem)).1
      refine h.2.2 _ hp hlength ((List.prefix_append_right_inj u).mpr ?_)
      exact hw _ hblank (List.cons_prefix_cons.mpr ⟨rfl, hv⟩)
  | _ => exact trivial

end Lexeme

/-! ## Neighbours -/

/-- The spellings of tokens, one after the other. -/
def spell (ts : List Token) : List Char := ts.flatMap fun t => t.text.toList

/-- The lexeme that a token is read as. -/
def Token.lexeme (t : Token) : Lexeme := .token t.kind t.text.toList

/-- Whether the spellings of tokens, one after the other, are read as these tokens. -/
def SideBySide (ts : List Token) : Prop := lexemes (spell ts) = ts.map Token.lexeme

section
variable {t : Token} {ts us : List Token}

theorem spell_cons (t : Token) (ts : List Token) :
    spell (t :: ts) = t.text.toList ++ spell ts := List.flatMap_cons

theorem spell_singleton (t : Token) : spell [t] = t.text.toList := List.append_nil _

theorem spell_append (ts us : List Token) :
    spell (ts ++ us) = spell ts ++ spell us := List.flatMap_append

theorem SideBySide.nil : SideBySide [] := by
  rw [SideBySide, spell, List.flatMap_nil, lexemes, List.map_nil]

/-- The first of some tokens is read first of their spellings, and the others are read after it. -/
theorem sideBySide_cons : SideBySide (t :: ts) ↔
    (∃ c cs, t.text.toList = c :: cs ∧
      first c (cs ++ spell ts) = .ok (t.kind, cs.length)) ∧ SideBySide ts := by
  rw [SideBySide, spell_cons, List.map_cons, Token.lexeme]
  constructor
  · intro h
    cases hu : t.text.toList with
    | nil =>
      have hmem : Lexeme.token t.kind [] ∈ lexemes (spell ts) := by
        rw [hu, List.nil_append] at h
        rw [h]
        exact List.mem_cons_self
      exact absurd rfl (text_ne_nil hmem)
    | cons c cs =>
      rw [hu, List.cons_append, lexemes] at h
      cases hfirst : first c (cs ++ spell ts) with
      | error cause =>
        rw [hfirst] at h
        cases (List.cons.inj h).1
      | ok kn =>
        obtain ⟨kind, n⟩ := kn
        rw [hfirst] at h
        obtain ⟨hhead, htail⟩ := List.cons.inj h
        injection hhead with hkind htext
        have htake := (List.cons.inj htext).2
        have hn := congrArg List.length htake
        rw [List.length_take_of_le (le_length_of_first hfirst)] at hn
        subst hn
        rw [List.drop_left] at htail
        exact ⟨⟨c, cs, rfl, by rw [hfirst, hkind]⟩, htail⟩
  · rintro ⟨⟨c, cs, hu, hfirst⟩, hts⟩
    rw [hu, List.cons_append, lexemes, hfirst]
    simp only
    rw [List.take_left, List.drop_left, hts]

theorem SideBySide.of_append (h : SideBySide (ts ++ us)) : SideBySide us := by
  induction ts with
  | nil => exact h
  | cons t ts ih => exact ih (sideBySide_cons.mp h).2

theorem SideBySide.of_suffix (h : SideBySide ts) (hsuffix : us <:+ ts) : SideBySide us := by
  obtain ⟨before, rfl⟩ := hsuffix
  exact h.of_append

/-- What a token's neighbour begins with does not go on with the token. -/
theorem SideBySide.stops (h : SideBySide (t :: ts)) (hlayout : t.isLayout = false) :
    Stops t.kind t.text.toList (spell ts) := by
  obtain ⟨⟨c, cs, hu, hfirst⟩, -⟩ := sideBySide_cons.mp h
  have hstops := stops_of_first hfirst hlayout
  rwa [List.take_left, List.drop_left, ← hu] at hstops

/-- A token that reads as itself alone is read before text that does not go on with it. -/
theorem SideBySide.cons (hts : SideBySide ts) (halone : t.Alone) (hlayout : t.isLayout = false)
    (hstops : Stops t.kind t.text.toList (spell ts)) : SideBySide (t :: ts) := by
  obtain ⟨c, cs, hu, hfirst⟩ := halone.first_eq hlayout
  rw [hu] at hstops
  exact sideBySide_cons.mpr ⟨⟨c, cs, hu, first_append_of_stops hfirst hlayout hstops⟩, hts⟩

/-- A token that was read of a text reads as itself alone, but for a point before a digit that goes on
no number. -/
theorem SideBySide.alone (h : SideBySide (t :: ts)) :
    t.Alone ∨ t.kind = .number ∧ t.text = "." := by
  obtain ⟨⟨c, cs, hu, hfirst⟩, -⟩ := sideBySide_cons.mp h
  by_cases hpoint : t.kind = .number ∧ c = '.' ∧ cs.length = 0
  · obtain ⟨hkind, rfl, hnil⟩ := hpoint
    rw [List.length_eq_zero_iff.mp hnil] at hu
    exact .inr ⟨hkind, String.toList_inj.mp hu⟩
  · have htake := first_take hfirst fun hkind hc hn => hpoint ⟨hkind, hc, hn⟩
    rw [List.take_left] at htake
    exact .inl (Token.alone_of_first hu htake)

/-- A blank is read as such before a token that is no layout. -/
theorem SideBySide.blank (h : SideBySide (t :: ts)) (hlayout : t.isLayout = false)
    (location : Location) : SideBySide (.blank location :: t :: ts) := by
  obtain ⟨⟨c, cs, hu, hfirst⟩, -⟩ := sideBySide_cons.mp h
  have hc : isBlank c = false := (NoLayout.of_first hfirst hlayout).blank
  refine sideBySide_cons.mpr ⟨⟨' ', [], (by decide : " ".toList = [' ']), ?_⟩, h⟩
  rw [first_blank (by decide), List.nil_append, spell_cons, hu, List.cons_append, spanLength_cons,
    if_neg (by rw [hc]; exact Bool.false_ne_true)]
  rfl

end

namespace Source

variable {s : Source} {ts : List Token}

/-- The tokens of a source are its lexemes, if none of these is a fault. -/
theorem lexemes_of_tokens (h : s.tokens = .ok ts) :
    CPreprocessor.lexemes (CPreprocessor.despliced s.text.toList) = ts.map Token.lexeme := by
  have hread : ∀ (scanned : List Scanned) (ls : List Lexeme) (ts : List Token),
      scanned.map Scanned.form = ls.map Lexeme.form → scanned.mapM s.strict = .ok ts →
        ls = ts.map Token.lexeme := by
    intro scanned
    induction scanned with
    | nil =>
      rintro ls ts hforms ⟨⟩
      exact List.map_eq_nil_iff.mp hforms.symm
    | cons t scanned ih =>
      intro ls ts hforms h
      obtain ⟨l, ls, rfl, hl, hls⟩ := List.map_eq_cons_iff.mp hforms.symm
      rw [mapM_cons_except, strict, reportOf?] at h
      cases l with
      | fault cause skipped =>
        have hfault : t.fault = some cause := (congrArg Prod.snd hl).symm
        rw [hfault] at h
        cases h
      | token kind text =>
        have hfault : t.fault = none := (congrArg Prod.snd hl).symm
        have hform : (kind, String.ofList text) = t.token.form := congrArg Prod.fst hl
        have htoken : Lexeme.token kind text = t.token.lexeme := by
          obtain ⟨hkind, htext⟩ := Prod.mk.inj hform
          rw [Token.lexeme, ← hkind, ← htext, String.toList_ofList]
        rw [hfault] at h
        obtain ⟨rest, hrest, rfl⟩ := map_eq_ok_iff.mp h
        rw [List.map_cons, htoken, ih ls rest hls.symm hrest]
  exact hread s.scan _ ts s.map_form_scan h

/-- The tokens of a source are read side by side, and spell its text without the splices. -/
theorem sideBySide_tokens (h : s.tokens = .ok ts) :
    SideBySide ts ∧ spell ts = CPreprocessor.despliced s.text.toList := by
  have hlexemes := lexemes_of_tokens h
  have hspell : spell ts = CPreprocessor.despliced s.text.toList := by
    rw [← flatMap_text_lexemes (CPreprocessor.despliced s.text.toList), hlexemes, List.flatMap_map]
    rfl
  exact ⟨by rw [SideBySide, hspell, hlexemes], hspell⟩

/-- Tokens whose spellings are read side by side are the tokens of a source that spells them. -/
theorem exists_tokens_of_sideBySide (h : SideBySide ts)
    (hspell : spell ts = CPreprocessor.despliced s.text.toList) :
    ∃ read, s.tokens = .ok read ∧ read.map Token.form = ts.map Token.form ∧
      ∀ t ∈ read, t.hide = ∅ ∧ t.painted = false := by
  have hscan := s.map_scan (f := fun t => (t.form, t.token.hide, t.token.painted))
    (g := fun l => (l.form, ∅, false)) fun p l => by cases l <;> rfl
  rw [← hspell, h, List.map_map] at hscan
  have hplain : ∀ t ∈ s.scan, t.fault = none ∧ t.token.hide = ∅ ∧ t.token.painted = false := by
    intro t ht
    obtain ⟨u, -, hu⟩ := List.mem_map.mp (hscan ▸ List.mem_map_of_mem ht)
    obtain ⟨hform, hbare⟩ := Prod.mk.inj hu
    exact ⟨(congrArg Prod.snd hform).symm, (congrArg Prod.fst hbare).symm,
      (congrArg Prod.snd hbare).symm⟩
  refine ⟨s.scan.map Scanned.token, tokens_eq_ok_iff.mpr ?_, ?_, List.forall_mem_map.mpr fun t ht =>
    (hplain t ht).2⟩
  · rw [List.map_map]
    refine (List.map_id _).symm.trans (List.map_congr_left fun t ht => ?_)
    obtain ⟨token, fault⟩ := t
    obtain rfl : fault = none := (hplain _ ht).1
    rfl
  · have hforms := congrArg (List.map fun x => x.1.1) hscan
    rw [List.map_map, List.map_map] at hforms
    rw [List.map_map]
    refine hforms.trans (List.map_congr_left fun t _ => ?_)
    simp only [Function.comp_apply, Token.lexeme, Lexeme.form, String.ofList_toList, Token.form]

end Source

end CPreprocessor
