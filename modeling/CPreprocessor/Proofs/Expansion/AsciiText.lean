import CPreprocessor.Proofs.Expansion.Machine
import CPreprocessor.Proofs.Macro.Reachable
import CPreprocessor.Proofs.Render.RoundTrip

/-!
# Expansions of text in ASCII

The point that the lexer makes a number of, before a digit of another script that goes on no number, is
the one token of a source that does not read as itself. No text in ASCII has it (`Token.InAscii.form_ne`),
and no expansion makes it (`Lasting.withoutPoint`): what two operands join to is read by the lexer itself,
and by itself a point is a punctuator. So all that comes of ASCII text but its layout and its string
literals, which may be spelled from anything, is read as what it is (`Expander.readsAlone_expand`).
-/

namespace CPreprocessor

open Lexeme

/-! ## Points -/

/-- What the lexer reads of a point before a digit that goes on no number. -/
def pointForm : Kind × String := (.number, ".")

theorem isDigit_of_ascii {c : Char} (h : c.toNat < 128) (hc : Text.isDigit c = true) :
    c.isDigit = true := by
  rwa [Text.isDigit, if_pos h] at hc

/-- In ASCII a digit behind a point goes on with the number. -/
theorem point_not_mem_lexemes {u : List Char} (h : ∀ c ∈ u, c.toNat < 128) :
    .token .number ['.'] ∉ lexemes u := by
  fun_induction lexemes u with
  | case1 => exact List.not_mem_nil
  | case2 c cs kind n hfirst ih =>
    obtain ⟨-, hcs⟩ := List.forall_mem_cons.mp h
    intro hmem
    rcases List.mem_cons.mp hmem with heq | hmem
    swap
    · exact ih (fun c hc => hcs c (List.mem_of_mem_drop hc)) hmem
    injection heq with hkind htext
    subst hkind
    obtain ⟨rfl, htake⟩ := List.cons.inj htext
    obtain ⟨hstarts, rfl⟩ := startsNumber_of_first hfirst
    cases cs with
    | nil => cases hstarts
    | cons d cs =>
      have hd : d.isDigit = true := isDigit_of_ascii (hcs d List.mem_cons_self) hstarts
      have hlength : numberLength (d :: cs) = 0 := by
        simpa using htake.symm
      have hstop := (numberLength_stop (d :: cs) d (by rw [hlength]; rfl)).1
      rw [isNameChar, hd, Bool.or_true] at hstop
      cases hstop
  | case3 c cs cause hfirst n ih =>
    obtain ⟨-, hcs⟩ := List.forall_mem_cons.mp h
    intro hmem
    rcases List.mem_cons.mp hmem with heq | hmem
    · cases heq
    · exact ih (fun c hc => hcs c (List.mem_of_mem_drop hc)) hmem

theorem mem_of_mem_despliced {u : List Char} : ∀ c ∈ despliced u, c ∈ u := by
  fun_induction despliced u with
  | case1 => exact fun c hc => hc
  | case2 cs ih => exact fun c hc => List.mem_cons_of_mem _ (List.mem_cons_of_mem _ (ih c hc))
  | case3 cs ih =>
    exact fun c hc => List.mem_cons_of_mem _ (List.mem_cons_of_mem _ (List.mem_cons_of_mem _ (ih c hc)))
  | case4 c cs hsplice hreturn ih =>
    exact List.forall_mem_cons.mpr ⟨List.mem_cons_self, fun d hd => List.mem_cons_of_mem c (ih d hd)⟩

/-! ## Tokens of text in ASCII -/

def Source.InAscii (s : Source) : Prop := ∀ c ∈ s.text.toList, c.toNat < 128

/-- Whether a token is one of a source in ASCII. -/
def Token.InAscii (t : Token) : Prop :=
  ∃ s : Source, s.InAscii ∧ ∃ read ∈ s.scan, read.token = t

namespace Token.InAscii

variable {t : Token}

theorem of_tokens {s : Source} {tokens : List Token} (h : s.tokens = .ok tokens)
    (hascii : s.text.toList.all (·.toNat < 128) = true) : ∀ t ∈ tokens, t.InAscii := by
  have hchars : ∀ c ∈ s.text.toList, c.toNat < 128 := by simpa using hascii
  exact fun t ht => ⟨s, hchars, Source.exists_mem_scan h ht⟩

theorem isScanned (h : t.InAscii) : t.IsScanned := by
  obtain ⟨s, -, hread⟩ := h
  exact ⟨s, hread⟩

theorem form_ne (h : t.InAscii) : t.form ≠ pointForm := by
  obtain ⟨s, hs, read, hread, rfl⟩ := h
  obtain ⟨l, hl, p, -, rfl⟩ := Source.exists_of_mem_settle hread
  cases l with
  | fault cause skipped => exact fun heq => nomatch (Prod.mk.inj heq).1
  | token kind text =>
    intro heq
    obtain ⟨rfl, htext⟩ := Prod.mk.inj heq
    obtain rfl : text = ['.'] := by
      rw [← String.toList_ofList (l := text)]
      exact congrArg String.toList htext
    exact point_not_mem_lexemes (fun c hc => hs c (mem_of_mem_despliced c hc)) hl

end Token.InAscii

/-- Whether a definition is read from tokens of texts in ASCII, or built in. -/
def Definition.InAscii (d : Definition) : Prop :=
  ∃ (read : Definition) (version : Nat), d = { read with version } ∧
    (read ∈ Builtin.all ∨ ∃ tokens location builtin,
      (∀ t ∈ tokens, t.InAscii) ∧ parse tokens location builtin = .ok read)

theorem Definition.InAscii.body {d : Definition} (h : d.InAscii) :
    ∀ t ∈ d.replacement, t.Lexed ∧ t.form ≠ pointForm := by
  obtain ⟨read, version, rfl, hbuiltin | ⟨tokens, location, builtin, htokens, hparse⟩⟩ := h
  · have hforms : ∀ d ∈ Builtin.all, ∀ t ∈ d.replacement, t.form ≠ pointForm := by decide
    exact fun t ht => ⟨(Builtin.sound_of_mem hbuiltin).lexed t ht, hforms read hbuiltin t ht⟩
  · intro t ht
    have hparsed : read.IsParsed :=
      ⟨tokens, location, builtin, fun t ht => (htokens t ht).isScanned, hparse⟩
    refine ⟨hparsed.sound.lexed t ht, ?_⟩
    rcases mem_of_parse hparse ht with ht | ⟨place, rfl⟩
    · exact (htokens t ht).form_ne
    · exact fun heq => nomatch (Prod.mk.inj heq).1

namespace Definition

variable {d : Definition} {table : Table}

theorem inAscii_define (htable : ∀ d ∈ table.definitions, d.InAscii) {tokens : List Token}
    {location : Option Location} {builtin : Bool} (htokens : ∀ t ∈ tokens, t.InAscii)
    (h : parse tokens location builtin = .ok d) : ∀ e ∈ (table.define d).definitions, e.InAscii :=
  Table.forall_define htable fun version =>
    ⟨d, version, rfl, .inr ⟨tokens, location, builtin, htokens, h⟩⟩

theorem inAscii_withBuiltins (htable : ∀ d ∈ table.definitions, d.InAscii) :
    ∀ d ∈ table.withBuiltins.definitions, d.InAscii :=
  Table.forall_withBuiltins (fun d hd version => ⟨d, version, rfl, .inl hd⟩) htable

end Definition

/-! ## Expansion -/

namespace Token

variable {t left right joined : Token} {site : Location}

theorem form_withoutNewline_ne (h : t.form ≠ pointForm) : t.withoutNewline.form ≠ pointForm := by
  rcases t.kind_withoutNewline with hkind | heq
  · exact fun heq => nomatch hkind.symm.trans (congrArg Prod.fst heq)
  · rwa [heq]

/-- The number of a line is no point. -/
theorem form_dynamicValue_ne (h : 0 ≤ t.location.line) : (dynamicValue t).form ≠ pointForm := by
  rw [dynamicValue]
  split
  · obtain ⟨n, hn⟩ := Int.eq_ofNat_of_zero_le h
    intro heq
    have htext : Nat.toDigits 10 n = ['.'] := by
      rw [← Nat.toList_repr]
      have htext := congrArg (fun form : Kind × String => form.2.toList) heq
      rwa [form, hn] at htext
    have hdigit : '.'.isDigit = true :=
      Nat.isDigit_of_mem_toDigits (by decide) (by decide) (htext ▸ List.mem_singleton_self _)
    cases hdigit
  · intro heq
    cases (Prod.mk.inj heq).1

/-- By itself a point is a punctuator. -/
theorem form_paste?_ne (hleft : left.form ≠ pointForm) (hright : right.form ≠ pointForm)
    (h : left.paste? right site = some joined) : joined.form ≠ pointForm := by
  rcases cases_of_paste? h with rfl | rfl | ⟨-, -, kind, text, hread, -, rfl⟩
  · exact hright
  · exact hleft
  · intro heq
    obtain ⟨rfl, htext⟩ := Prod.mk.inj heq
    have hpoint : left.text.toList ++ right.text.toList = ['.'] := by
      rw [← String.toList_append]
      exact congrArg String.toList htext
    rw [hpoint] at hread
    have hpunctuator : lexemes (despliced ['.']) = [.token .punctuator ['.']] := by cbv
    cases hread.symm.trans hpunctuator

end Token

/-- Spellings of tokens without points last through an expansion. -/
theorem Lasting.withoutPoint {table : Table}
    (h : table.Bodies fun t => t.Lexed ∧ t.form ≠ pointForm) :
    Lasting table (fun location => 0 ≤ location.line) fun t =>
      (t.Lexed ∧ 0 ≤ t.location.line) ∧ t.form ≠ pointForm :=
  have lexed : Lasting table _ _ := .lexed fun d hd t ht => (h d hd t ht).1
  { location ht h := lexed.location ht h.1
    paint h := ⟨lexed.paint h.1, h.2⟩
    hideBy hide h := ⟨lexed.hideBy hide h.1, h.2⟩
    withoutNewline h := ⟨lexed.withoutNewline h.1, Token.form_withoutNewline_ne h.2⟩
    dynamicValue h := ⟨lexed.dynamicValue h.1, Token.form_dynamicValue_ne h.1.2⟩
    copy hd ht hsite := ⟨lexed.copy hd ht hsite, (h _ hd _ ht).2⟩
    stringize h hsite := ⟨lexed.stringize (fun t ht => (h t ht).1) hsite,
      fun heq => nomatch (Prod.mk.inj heq).1⟩
    placemarker hsite := ⟨lexed.placemarker hsite, fun heq => nomatch (Prod.mk.inj heq).1⟩
    paste hjoins hleft hright hsite hpaste :=
      ⟨lexed.paste hjoins hleft.1 hright.1 hsite hpaste, Token.form_paste?_ne hleft.2 hright.2 hpaste⟩ }

/-- A token that an expansion can give reads as itself, unless it is layout, a string literal or a
point. -/
theorem Token.Lexed.readsAlone {t : Token} (h : t.Lexed) (hpoint : t.form ≠ pointForm)
    (hplacemarker : t.kind ≠ .placemarker) (hlayout : t.isLayout = false) (hstring : t.kind ≠ .string) :
    t.ReadsAlone := by
  cases h with
  | spelled h =>
    cases h with
    | space h => rcases h with ⟨h, -⟩ | ⟨h, -⟩ <;> simp [isLayout, h, Kind.isLayout] at hlayout
    | alone h => exact h.readsAlone hlayout
    | string h => exact absurd h hstring
    | point hkind htext => exact absurd (Prod.ext hkind htext) hpoint
  | comment h => simp [isLayout, h, Kind.isLayout] at hlayout
  | placemarker h => exact absurd h hplacemarker

namespace Expander

variable {e : Expander} {tokens : List Token} {expansion : Expansion}

/-- The end of the input is left out of an expansion. -/
theorem expand_endOfInput (e : Expander) (tokens : List Token) :
    e.expand (tokens.filter fun t => t.kind ≠ .endOfInput) = e.expand tokens := by
  simp only [expand, List.filter_filter, Bool.and_self]

/-- Expanded tokens are tokens of the lexer. Where the definitions of a table are read from text in
ASCII or built in, and such text, with lines that are numbered from zero on, is expanded by them, each
token that comes out reads as itself and as nothing else, but for the layout and the string literals. -/
theorem readsAlone_expand (htable : ∀ d ∈ e.table.definitions, d.InAscii)
    (htokens : ∀ t ∈ tokens, t.kind ≠ .endOfInput → t.InAscii ∧ 0 ≤ t.location.line)
    (h : e.expand tokens = .ok expansion) :
    ∀ t ∈ expansion.tokens, t.isLayout = false → t.kind ≠ .string → t.ReadsAlone := by
  have hlasts : Lasting e.table _ _ := .withoutPoint fun d hd t ht => (htable d hd).body t ht
  have hgiven : ∀ t ∈ tokens.filter fun t => t.kind ≠ .endOfInput,
      (t.Lexed ∧ 0 ≤ t.location.line) ∧ t.form ≠ pointForm := by
    intro t ht
    obtain ⟨ht, hkind⟩ := List.mem_filter.mp ht
    obtain ⟨hascii, hline⟩ := htokens t ht (of_decide_eq_true hkind)
    exact ⟨⟨hascii.isScanned.lexed, hline⟩, hascii.form_ne⟩
  have hexpansion := expand_lasting hlasts hgiven
  rw [expand_endOfInput, h] at hexpansion
  intro t ht hlayout hstring
  obtain ⟨⟨⟨hlexed, -⟩, hpoint⟩, hplacemarker⟩ := hexpansion t ht
  exact hlexed.readsAlone hpoint hplacemarker hlayout hstring

end Expander

/-! ## Numbers that are joined -/

/-- The macro that `#define JOIN(a,b) a##b` defines. -/
def joinMacro : Definition where
  name := "JOIN"
  shape := .function ["a", "b"] false
  replacement := [wordAt "a" 11, markAt "##" 12, wordAt "b" 14]
  location := some ⟨"<input>", 1, 1⟩

/-- The tokens of `JOIN(1,.5)__LINE__`. -/
def joinCall : List Token :=
  [wordAt "JOIN" 1, markAt "(" 5, ⟨.number, "1", ⟨"<input>", 1, 6⟩, ∅, false⟩, markAt "," 7,
    ⟨.number, ".5", ⟨"<input>", 1, 8⟩, ∅, false⟩, markAt ")" 10, wordAt "__LINE__" 11]

/-- The numbers `1.5` and `1`. -/
def joinedNumbers : List Token :=
  [⟨.number, "1.5", ⟨"<input>", 1, 1⟩, HideSet.insert ∅ "JOIN", false⟩,
    ⟨.number, "1", ⟨"<input>", 1, 11⟩, HideSet.insert ∅ "__LINE__", false⟩]

/-- Numbers that are joined, and the number of a line, read as themselves. -/
theorem Expander.readsAlone_expand_numbers :
    ∃ e : Expander, (∀ d ∈ e.table.definitions, d.InAscii) ∧ (∀ t ∈ joinCall, t.InAscii) ∧
      e.expand joinCall = .ok ⟨joinedNumbers, ["JOIN"]⟩ ∧
      ∀ t ∈ joinedNumbers, t.ReadsAlone := by
  have htokens : Source.tokens { text := "JOIN(1,.5)__LINE__" } = .ok joinCall := by cbv
  have hcall := Token.InAscii.of_tokens htokens rfl
  obtain ⟨body, hbody, hparse⟩ : ∃ body, Source.tokens { text := "JOIN(a,b) a##b" } = .ok body ∧
      Definition.parse body none false = .ok joinMacro := ⟨_, by cbv, by cbv⟩
  have hempty : ∀ d ∈ (∅ : Table).definitions, d.InAscii := List.forall_mem_nil _
  have htable := Definition.inAscii_define (Definition.inAscii_withBuiltins hempty)
    (Token.InAscii.of_tokens hbody rfl) hparse
  have hhalted : (Machine.step { table := (Table.withBuiltins ∅).define joinMacro })^[12]
      (Machine.start joinCall) = .halted (.ok ⟨joinedNumbers.reverse, ["JOIN"]⟩) := by cbv
  have hexpand := Machine.expand_of_halted 12 hhalted
  refine ⟨_, htable, hcall, hexpand, fun t ht => ?_⟩
  have hline : ∀ t ∈ joinCall, 0 ≤ t.location.line := by decide
  have hkind : ∀ t ∈ joinedNumbers, t.isLayout = false ∧ t.kind ≠ .string := by decide
  exact Expander.readsAlone_expand htable (fun t ht _ => ⟨hcall t ht, hline t ht⟩) hexpand t ht
    (hkind t ht).1 (hkind t ht).2

/-- The number of a line before the first one does not read as itself. -/
theorem Expander.readsAlone_expand_negative :
    let e : Expander := { table := Table.withBuiltins ∅ }
    let name : Token := ⟨.identifier, "__LINE__", ⟨"<input>", -4, 1⟩, ∅, false⟩
    let number : Token := ⟨.number, "-4", ⟨"<input>", -4, 1⟩, HideSet.insert ∅ "__LINE__", false⟩
    (∀ d ∈ e.table.definitions, d.InAscii) ∧
      Source.tokens { text := "__LINE__", firstLine := -4 } = .ok [name] ∧ name.InAscii ∧
      e.expand [name] = .ok ⟨[number], []⟩ ∧ ¬ number.ReadsAlone := by
  intro e name number
  have htokens : Source.tokens { text := "__LINE__", firstLine := -4 } = .ok [name] := by cbv
  have hhalted : (Machine.step e)^[2] (Machine.start [name]) = .halted (.ok ⟨[number], []⟩) := by cbv
  have hread : Source.tokens { text := "-4" } =
      .ok [markAt "-" 1, ⟨.number, "4", ⟨"<input>", 1, 2⟩, ∅, false⟩] := by cbv
  have hascii := Token.InAscii.of_tokens htokens rfl
  have hempty : ∀ d ∈ (∅ : Table).definitions, d.InAscii := List.forall_mem_nil _
  have htable := Definition.inAscii_withBuiltins hempty
  have hexpand := Machine.expand_of_halted 2 hhalted
  refine ⟨htable, htokens, hascii name List.mem_cons_self, hexpand, ?_⟩
  rintro ⟨read, hsingle, -⟩
  cases hread.symm.trans hsingle

end CPreprocessor
