import Mathlib
import CPreprocessor.Proofs.Directive.FatalError
import CPreprocessor.Proofs.Directive.MessageText
import CPreprocessor.Proofs.Expansion.Lexed

/-!
# Messages as written

The line of an `#error` or `#warning` is told by its tokens when it is taken, and by its text when a
lexical fault in it is looked at. The two agree on a line exactly if it is plain
(`Run.messageLine_agrees`).
-/

namespace CPreprocessor

/-! ## The form of a line that asks for a message -/

namespace Keyword

variable {text : String} {k : Keyword}

theorem mem_table_of_ofText? (h : ofText? text = some k) : (text, k) ∈ table := by
  obtain ⟨above, below, htable, -⟩ := List.lookup_eq_some_iff.mp h
  rw [htable]
  exact List.mem_append_right _ List.mem_cons_self

theorem ofText?_error_iff : ofText? text = some .error ↔ text = "error" := by
  refine ⟨fun h => by simpa [table] using mem_table_of_ofText? h, ?_⟩
  rintro rfl
  decide

theorem ofText?_warning_iff : ofText? text = some .warning ↔ text = "warning" := by
  refine ⟨fun h => by simpa [table] using mem_table_of_ofText? h, ?_⟩
  rintro rfl
  decide

end Keyword

namespace LineForm

variable {line lead gap after rest : List Token} {mark name : Token}

/-- Whether the directive of a line is `#error` or `#warning`. -/
def IsMessage : LineForm → Prop
  | directive _ name _ =>
    Keyword.ofText? name.text = some .error ∨ Keyword.ofText? name.text = some .warning
  | _ => False

/-- The tokens of a directive: layout, the `#`, more layout, the name, and what follows it. -/
structure Directs (line lead gap after : List Token) (mark name : Token) : Prop where
  line : line = lead ++ mark :: (gap ++ name :: after)
  lead : ∀ t ∈ lead, t.kind = .whitespace ∨ t.kind = .comment
  gap : ∀ t ∈ gap, t.isLayout = true
  mark : mark.isPunctuator "#" = true
  name : name.isIdentifier = true

theorem isLayout_of_kind {t : Token} (h : t.kind = .whitespace ∨ t.kind = .comment) :
    t.isLayout = true := by
  rw [Token.isLayout]
  rcases h with hkind | hkind
  · rw [hkind]
    rfl
  · rw [hkind]
    rfl

theorem of_eq_directive_iff :
    LineForm.of line = .directive mark name rest ↔ ∃ lead gap after,
      Directs line lead gap after mark name ∧ rest = after.filter fun t => t.kind ≠ .newline := by
  have hlayout : ∀ t : Token, (decide (t.kind = .whitespace) || decide (t.kind = .comment)) = true ↔
      t.kind = .whitespace ∨ t.kind = .comment := fun t => by
    rw [Bool.or_eq_true, decide_eq_true_iff, decide_eq_true_iff]
  constructor
  · intro h
    unfold LineForm.of at h
    split at h
    · cases h
    rename_i m afterMark hmark
    split at h
    · rename_i hpunctuator
      split at h
      · cases h
      rename_i n after hname
      split at h
      · rename_i hidentifier
        cases h
        have hlead := List.takeWhile_append_dropWhile (l := line)
          (p := fun t => decide (t.kind = .whitespace) || decide (t.kind = .comment))
        have hgap := List.takeWhile_append_dropWhile (l := afterMark) (p := Token.isLayout)
        rw [hmark] at hlead
        rw [show afterMark.dropWhile Token.isLayout = _ from hname] at hgap
        refine ⟨_, _, after, ⟨by rw [hgap, hlead], fun t ht => ?_, fun t ht => ?_, hpunctuator,
          hidentifier⟩, rfl⟩
        · exact (hlayout t).mp (List.all_eq_true.mp List.all_takeWhile t ht)
        · exact List.all_eq_true.mp List.all_takeWhile t ht
      split at h
      · cases h
      · cases h
    · cases h
  · rintro ⟨lead, gap, after, ⟨rfl, hlead, hgap, hmark, hname⟩, rfl⟩
    have hdrop : (lead ++ mark :: (gap ++ name :: after)).dropWhile
        (fun t => decide (t.kind = .whitespace) || decide (t.kind = .comment)) =
          mark :: (gap ++ name :: after) := by
      refine dropWhile_append_of_stop (fun t ht => (hlayout t).mpr (hlead t ht)) ?_
      rintro t ⟨⟩
      rw [(Token.isPunctuator_iff.mp hmark).1]
      decide
    have hskip : skipLayout (gap ++ name :: after) = name :: after := by
      refine dropWhile_append_of_stop hgap ?_
      rintro t ⟨⟩
      rw [Token.isLayout, of_decide_eq_true hname]
      rfl
    rw [LineForm.of, hdrop]
    simp only [hmark, hskip, hname, if_true]

theorem isMessage_iff :
    (LineForm.of line).IsMessage ↔ ∃ lead gap after mark name,
      Directs line lead gap after mark name ∧ (name.text = "error" ∨ name.text = "warning") := by
  constructor
  · intro h
    cases hform : LineForm.of line with
    | directive mark name rest =>
      rw [hform, IsMessage, Keyword.ofText?_error_iff, Keyword.ofText?_warning_iff] at h
      obtain ⟨lead, gap, after, hdirects, -⟩ := of_eq_directive_iff.mp hform
      exact ⟨lead, gap, after, mark, name, hdirects, h⟩
    | _ =>
      rw [hform] at h
      exact h.elim
  · rintro ⟨lead, gap, after, mark, name, hdirects, htext⟩
    rw [of_eq_directive_iff.mpr ⟨lead, gap, after, hdirects, rfl⟩, IsMessage,
      Keyword.ofText?_error_iff, Keyword.ofText?_warning_iff]
    exact htext

end LineForm

/-! ## A line as it is taken and as it is looked at -/

namespace Lexeme

/-- The lexeme of a token that is no white space. -/
theorem eq_token_of_form {x : Lexeme} {t : Token} (h : x.form.1 = t.form) (ht : t.kind ≠ .whitespace) :
    x = .token t.kind t.text.toList := by
  cases x with
  | token kind text =>
    obtain ⟨hkind, htext⟩ : kind = t.kind ∧ String.ofList text = t.text := Prod.mk.inj h
    rw [← hkind, ← htext, String.toList_ofList]
  | fault cause skipped => exact absurd (Prod.mk.inj h).1.symm ht

theorem isSpacing_of_form {ts : List Token} {ys : List Lexeme}
    (h : (ys.map fun x => x.form.1) = ts.map Token.form) (hts : ∀ t ∈ ts, t.isLayout = true)
    (hys : ∀ y ∈ ys, ∃ kind text, y = .token kind text ∧ kind ≠ .newline) :
    ∀ y ∈ ys, y.IsSpacing := by
  intro y hy
  obtain ⟨kind, text, rfl, hkind⟩ := hys y hy
  have hmem : (Lexeme.form (.token kind text)).1 ∈ ts.map Token.form :=
    h ▸ List.mem_map_of_mem (f := fun x : Lexeme => x.form.1) hy
  obtain ⟨t, ht, hform⟩ := List.mem_map.mp hmem
  have hlayout := hts t ht
  rw [Token.isLayout, show t.kind = kind from congrArg Prod.fst hform] at hlayout
  cases kind with
  | whitespace => exact ⟨text, .inl rfl⟩
  | comment => exact ⟨text, .inr rfl⟩
  | newline => exact absurd rfl hkind
  | _ => cases hlayout

theorem kind_of_isSpacing {ts : List Token} {ys : List Lexeme}
    (h : ts.map Token.form = ys.map fun x => x.form.1) (hys : ∀ y ∈ ys, y.IsSpacing) :
    ∀ t ∈ ts, t.kind = .whitespace ∨ t.kind = .comment := by
  intro t ht
  have hmem : t.form ∈ ys.map fun x => x.form.1 := h ▸ List.mem_map_of_mem ht
  obtain ⟨y, hy, hform⟩ := List.mem_map.mp hmem
  obtain ⟨text, rfl | rfl⟩ := hys y hy
  · exact .inl (congrArg Prod.fst hform).symm
  · exact .inr (congrArg Prod.fst hform).symm

end Lexeme

namespace Source.Line

variable {s : Source} {l : s.Line}

/-- What a line is when it is taken. -/
def form (l : s.Line) : LineForm := LineForm.of (l.tokens.map Scanned.token)

/-- What stands before the first name in a line. -/
def beforeName (l : s.Line) : List Lexeme := l.lexemes.takeWhile fun x => x.kind ≠ .identifier

/-- The text after the first name in a line, up to its end, without splices. -/
def afterName (l : s.Line) : List Char :=
  (l.lexemes.dropWhile fun x => x.kind ≠ .identifier).tail.flatMap Lexeme.text

/-- Whether no comment stands before the first name in a line, and no word character of another script
right after it. -/
structure Tidy (l : s.Line) : Prop where
  comment : ∀ x ∈ l.beforeName, x.kind ≠ .comment
  stop : ∀ c ∈ l.afterName.head?, Text.isWordChar c = false

/-- Whether a line looks like a directive for a message though the lexer reads it otherwise: with white
space that is no blank, or with a dollar sign at the name. -/
def Lookalike (l : s.Line) : Prop :=
  ∃ sp₁ sp₂ word rest, MessageLine.Shape (beforeNewline l.text.toList) sp₁ sp₂ word rest ∧
    (rest.head? = some '$' ∨ ∃ c ∈ sp₁ ++ sp₂, Lexeme.isBlank c = false)

theorem map_form_token (l : s.Line) :
    (l.tokens.map Scanned.token).map Token.form = l.lexemes.map fun x => x.form.1 := by
  have h := congrArg (List.map Prod.fst) l.map_form_tokens
  rw [List.map_map, List.map_map] at h
  rw [List.map_map]
  exact h

theorem exists_lexeme_directs {lead gap after : List Token} {mark name : Token}
    (h : LineForm.Directs (l.tokens.map Scanned.token) lead gap after mark name) :
    ∃ lead' gap' after', Lexeme.Directs l.lexemes lead' gap' after' name.text.toList ∧
      after.map Token.form = after'.map fun x => x.form.1 := by
  have hforms := l.map_form_token
  rw [h.line, List.map_append, List.map_cons, List.map_append, List.map_cons] at hforms
  obtain ⟨lead', rest, hlexemes, hlead, hrest⟩ := List.map_eq_append_iff.mp hforms.symm
  obtain ⟨m, rest, rfl, hm, hrest⟩ := List.map_eq_cons_iff.mp hrest
  obtain ⟨gap', rest, rfl, hgap, hrest⟩ := List.map_eq_append_iff.mp hrest
  obtain ⟨n, after', rfl, hn, hafter⟩ := List.map_eq_cons_iff.mp hrest
  obtain ⟨hmark, htext⟩ := Token.isPunctuator_iff.mp h.mark
  have hname : name.kind = .identifier := of_decide_eq_true h.name
  rw [Lexeme.eq_token_of_form hm (by rw [hmark]; rintro ⟨⟩),
    Lexeme.eq_token_of_form hn (by rw [hname]; rintro ⟨⟩), hmark, htext, hname] at hlexemes
  have hplain : ∀ y ∈ lead' ++ .token .punctuator ['#'] :: gap', ∃ kind text,
      y = .token kind text ∧ kind ≠ .newline :=
    exists_of_mem_front (hlexemes.trans (by rw [List.append_assoc]; rfl) :
      l.lexemes = _ ++ .token .identifier name.text.toList :: after') (by rintro ⟨⟩)
  refine ⟨lead', gap', after', ⟨hlexemes, ?_, ?_⟩, hafter.symm⟩
  · exact Lexeme.isSpacing_of_form hlead (fun t ht => LineForm.isLayout_of_kind (h.lead t ht))
      fun y hy => hplain y (List.mem_append_left _ hy)
  · exact Lexeme.isSpacing_of_form hgap h.gap fun y hy =>
      hplain y (List.mem_append_right _ (List.mem_cons_of_mem _ hy))

theorem exists_directs {lead gap after : List Lexeme} {name : List Char}
    (h : Lexeme.Directs l.lexemes lead gap after name) :
    ∃ lead' gap' after' mark name',
      LineForm.Directs (l.tokens.map Scanned.token) lead' gap' after' mark name' ∧
        name'.text = String.ofList name := by
  have hforms := l.map_form_token
  rw [h.lexemes, List.map_append, List.map_cons, List.map_append, List.map_cons] at hforms
  obtain ⟨lead', rest, hline, hlead, hrest⟩ := List.map_eq_append_iff.mp hforms
  obtain ⟨mark, rest, rfl, hmark, hrest⟩ := List.map_eq_cons_iff.mp hrest
  obtain ⟨gap', rest, rfl, hgap, hrest⟩ := List.map_eq_append_iff.mp hrest
  obtain ⟨name', after', rfl, hname, -⟩ := List.map_eq_cons_iff.mp hrest
  exact ⟨lead', gap', after', mark, name', ⟨hline, Lexeme.kind_of_isSpacing hlead h.lead,
    fun t ht => LineForm.isLayout_of_kind (Lexeme.kind_of_isSpacing hgap h.gap t ht),
    Token.isPunctuator_iff.mpr (Prod.mk.inj hmark), decide_eq_true (Prod.mk.inj hname).1⟩,
    (Prod.mk.inj hname).2⟩

theorem isMessage_iff :
    l.form.IsMessage ↔ ∃ lead gap after name, Lexeme.Directs l.lexemes lead gap after name ∧
      (name = "error".toList ∨ name = "warning".toList) := by
  rw [form, LineForm.isMessage_iff]
  constructor
  · rintro ⟨lead, gap, after, mark, name, hdirects, hname⟩
    obtain ⟨lead', gap', after', hlexemes, -⟩ := exists_lexeme_directs hdirects
    exact ⟨lead', gap', after', _, hlexemes,
      hname.imp (congrArg String.toList) (congrArg String.toList)⟩
  · rintro ⟨lead, gap, after, name, hdirects, hname⟩
    obtain ⟨lead', gap', after', mark, name', hline, htext⟩ := exists_directs hdirects
    refine ⟨lead', gap', after', mark, name', hline, ?_⟩
    rw [htext]
    exact hname.imp (congrArg String.ofList) (congrArg String.ofList)

section
variable {lead gap after : List Lexeme} {name : List Char}
  (h : Lexeme.Directs l.lexemes lead gap after name)

include h

theorem beforeName_eq : l.beforeName = lead ++ .token .punctuator ['#'] :: gap ∧
    l.afterName = after.flatMap Lexeme.text := by
  have hspacing : ∀ {ys : List Lexeme}, (∀ y ∈ ys, y.IsSpacing) →
      ∀ y ∈ ys, decide (y.kind ≠ .identifier) = true :=
    fun hys y hy => decide_eq_true (hys y hy).kind_ne
  have hall : ∀ y ∈ lead ++ .token .punctuator ['#'] :: gap, decide (y.kind ≠ .identifier) = true :=
    List.forall_mem_append.mpr ⟨hspacing h.lead, List.forall_mem_cons.mpr ⟨rfl, hspacing h.gap⟩⟩
  have hsplit : l.lexemes =
      (lead ++ .token .punctuator ['#'] :: gap) ++ .token .identifier name :: after := by
    rw [h.lexemes, List.append_assoc]
    rfl
  have hstop : ∀ y ∈ (Lexeme.token .identifier name :: after).head?,
      decide (y.kind ≠ .identifier) = false := by
    rintro y ⟨⟩
    rfl
  rw [beforeName, afterName, hsplit, takeWhile_append_of_stop hall hstop,
    dropWhile_append_of_stop hall hstop]
  exact ⟨rfl, rfl⟩

theorem tidy_iff : l.Tidy ↔ Lexeme.Shown lead gap after := by
  obtain ⟨hbefore, hafter⟩ := beforeName_eq h
  constructor
  · rintro ⟨hcomment, hstop⟩
    rw [hbefore] at hcomment
    rw [hafter] at hstop
    obtain ⟨hlead, hgap⟩ := List.forall_mem_append.mp hcomment
    exact ⟨hlead, (List.forall_mem_cons.mp hgap).2, hstop⟩
  · rintro ⟨hlead, hgap, hstop⟩
    refine ⟨?_, by rwa [hafter]⟩
    rw [hbefore]
    exact List.forall_mem_append.mpr ⟨hlead, List.forall_mem_cons.mpr ⟨by rintro ⟨⟩, hgap⟩⟩

end

open MessageLine

/-- The text of a directive for a message shows that it is one if it is tidy. -/
theorem isSome_message?_iff_tidy (h : l.form.IsMessage) :
    (message? (beforeNewline l.text.toList)).isSome = true ↔ l.Tidy := by
  obtain ⟨lead, gap, after, name, hdirects, hname⟩ := isMessage_iff.mp h
  rw [tidy_iff hdirects, Option.isSome_iff_exists]
  constructor
  · rintro ⟨rest, hrest⟩
    exact Lexeme.Directs.shown_of_message? (u := l.chars) hdirects hname hrest
  · intro hshown
    exact ⟨_, Lexeme.Directs.message?_of_shown (u := l.chars) hdirects hname hshown⟩

theorem message?_of_tidy (h : l.form.IsMessage) (htidy : l.Tidy) :
    message? (beforeNewline l.text.toList) = some (l.afterName.takeWhile (· ≠ '\n')) := by
  obtain ⟨lead, gap, after, name, hdirects, hname⟩ := isMessage_iff.mp h
  rw [(beforeName_eq hdirects).2]
  exact Lexeme.Directs.message?_of_shown (u := l.chars) hdirects hname ((tidy_iff hdirects).mp htidy)

/-- The text of another line shows a directive for a message only if the line looks like one. -/
theorem isSome_message?_iff_lookalike (h : ¬ l.form.IsMessage) :
    (message? (beforeNewline l.text.toList)).isSome = true ↔ l.Lookalike := by
  rw [Option.isSome_iff_exists]
  constructor
  · rintro ⟨rest, hrest⟩
    obtain ⟨sp₁, sp₂, word, hshape⟩ := message?_eq_some_iff.mp hrest
    refine ⟨sp₁, sp₂, word, rest, hshape, ?_⟩
    refine Classical.or_iff_not_imp_left.mpr fun hdollar => ?_
    refine Classical.byContradiction fun hblank => h (isMessage_iff.mpr ?_)
    have hall : ∀ c ∈ sp₁ ++ sp₂, Lexeme.isBlank c = true := fun c hc =>
      Bool.of_not_eq_false fun hfalse => hblank ⟨c, hc, hfalse⟩
    obtain ⟨hblank₁, hblank₂⟩ := List.forall_mem_append.mp hall
    obtain ⟨lead, gap, after, hdirects⟩ :=
      Lexeme.directs_of_shape (u := l.chars) hshape hblank₁ hblank₂ hdollar
    exact ⟨lead, gap, after, word, hdirects, hshape.word⟩
  · rintro ⟨sp₁, sp₂, word, rest, hshape, -⟩
    exact ⟨rest, message?_eq_some_iff.mpr ⟨sp₁, sp₂, word, hshape⟩⟩

/-- Whether the text of a line and its tokens tell the same of it. -/
structure Plain (l : s.Line) : Prop where
  tidy : l.form.IsMessage → l.Tidy
  honest : l.Lookalike → l.form.IsMessage

/-- The text of a line shows a directive for a message where the line is one, if it is plain. -/
theorem isSome_message?_iff_plain (l : s.Line) :
    ((message? (beforeNewline l.text.toList)).isSome = true ↔ l.form.IsMessage) ↔ l.Plain := by
  by_cases h : l.form.IsMessage
  · rw [isSome_message?_iff_tidy h, iff_true_right h]
    exact ⟨fun htidy => ⟨fun _ => htidy, fun _ => h⟩, fun hplain => hplain.tidy h⟩
  · rw [isSome_message?_iff_lookalike h, iff_false_right h]
    exact ⟨fun hnot => ⟨fun hask => absurd hask h, fun hlook => absurd hlook hnot⟩,
      fun hplain hlook => h (hplain.honest hlook)⟩

end Source.Line

/-! ## Faults of a line -/

namespace Run

open MessageLine

variable {u : SourceUnit} {l : u.source.Line} {r : Run} {front back : List Scanned} {t : Scanned}
  {cause : LexFault}

/-- The message that the listing shows at a token of a line is that of its text, but for a carriage
return or a backslash at its end. -/
theorem message?_location (hfirst : u.source.firstLine = 1) (h : l.Counted)
    (hl : l.tokens = front ++ t :: back) (ht : t.token.kind ≠ .newline)
    (hfront : ∀ f ∈ front, '\n' ∉ f.token.text.toList) :
    ∃ d, (d = [] ∨ d = ['\r'] ∨ d = ['\\'] ∧ l.text.toList.getLast? = some '\\') ∧
      message? (beforeNewline l.text.toList) =
        (message? (u.listing.logicalLine t.token.location.line)).map (· ++ d) := by
  obtain ⟨d, hd, hline⟩ := Source.Line.joins_location hfirst h hl ht hfront
  refine ⟨d, hd, ?_⟩
  rw [hline, SourceUnit.listing]
  rcases hd with rfl | rfl | ⟨rfl, -⟩
  · simp
  · rw [message?_concat (by decide)]
  · rw [message?_concat (by decide)]

/-- The text of a line is looked at where a fault in it stands. -/
theorem inMessage_eq (hfirst : u.source.firstLine = 1) (h : l.Counted)
    (hl : l.tokens = front ++ t :: back) (ht : t.token.kind ≠ .newline)
    (hfront : ∀ f ∈ front, '\n' ∉ f.token.text.toList) :
    inMessage u t.token.location = (message? (beforeNewline l.text.toList)).isSome := by
  obtain ⟨d, -, hmessage⟩ := message?_location hfirst h hl ht hfront
  rw [hmessage, Option.isSome_map, inMessage]

/-- A fault is the only one of its line. -/
theorem faultReports_eq (hl : l.tokens = front ++ t :: back) (hfault : t.fault = some cause) :
    faultReports u l.tokens =
      if inMessage u t.token.location then []
      else [u.source.report t.token.location cause] := by
  have hnone := Source.Line.fault_eq_none hl hfault
  have hfilter : ∀ fs : List Scanned, (∀ f ∈ fs, f.fault = none) →
      fs.filter (fun t => t.fault.isSome && !inMessage u t.token.location) = [] := fun fs hfs => by
    refine List.filter_eq_nil_iff.mpr fun f hf => ?_
    rw [hfs f hf, Option.isSome_none, Bool.false_and]
    exact Bool.false_ne_true
  rw [faultReports, hl, List.filter_append, List.filter_cons,
    hfilter front fun f hf => hnone f (List.mem_append_left _ hf),
    hfilter back fun f hf => hnone f (List.mem_append_right _ hf), hfault]
  cases inMessage u t.token.location with
  | true => rfl
  | false =>
    simp only [Option.isSome_some, Bool.not_false, Bool.and_self, if_true, List.nil_append,
      List.filterMap_cons, Source.reportOf?, hfault, Option.map_some, List.filterMap_nil]
    rfl

/-! ## The message -/

theorem strip_append {u v : List Char} (hv : ∀ c ∈ v, Text.isSpace c = true) :
    Text.strip (u ++ v) = Text.strip u := by
  rw [Text.strip, Text.strip, List.dropWhile_append]
  split
  · rename_i hnil
    rw [List.isEmpty_iff.mp hnil, List.dropWhile_eq_nil_iff.mpr hv]
  · rw [Text.stripRight, Text.stripRight, List.reverse_append,
      List.dropWhile_append_of_pos fun c hc => hv c (List.mem_reverse.mp hc)]

/-- A newline at the end of a text is stripped. -/
theorem strip_takeWhile {u : List Char} (h : '\n' ∉ u.dropLast) :
    Text.strip (u.takeWhile (· ≠ '\n')) = Text.strip u := by
  conv_rhs => rw [← List.takeWhile_append_dropWhile (p := (· ≠ '\n')) (l := u)]
  refine (strip_append fun c hc => ?_).symm
  have hsplit := List.takeWhile_append_dropWhile (p := (· ≠ '\n')) (l := u)
  cases hdrop : u.dropWhile (· ≠ '\n') with
  | nil =>
    rw [hdrop] at hc
    exact absurd hc List.not_mem_nil
  | cons d w =>
    have hd : d = '\n' := by
      have hhead : d ∈ (u.dropWhile (· ≠ '\n')).head? := by rw [hdrop]; rfl
      simpa using head?_dropWhile_eq_false hhead
    -- nothing stands after the newline
    have hw : w = [] := by
      refine Decidable.byContradiction fun hne => h ?_
      rw [← hsplit, hdrop, hd, List.dropLast_append_of_ne_nil (List.cons_ne_nil _ _),
        List.dropLast_cons_of_ne_nil hne]
      exact List.mem_append_right _ List.mem_cons_self
    rw [hdrop, hd, hw] at hc
    rw [List.mem_singleton.mp hc]
    decide

theorem not_mem_newline_afterName (hline : '\n' ∉ l.chars.dropLast) :
    '\n' ∉ l.afterName.dropLast := by
  have hsuffix : l.afterName <:+ l.chars := by
    obtain ⟨ls, hls⟩ := (List.tail_suffix _).trans
      (List.dropWhile_suffix (l := l.lexemes) fun x : Lexeme => decide (x.kind ≠ .identifier))
    refine ⟨ls.flatMap Lexeme.text, ?_⟩
    rw [← flatMap_text_lexemes l.chars, Source.Line.afterName, ← List.flatMap_append, hls]
    rfl
  obtain ⟨before, hbefore⟩ := hsuffix
  by_cases hnil : l.afterName = []
  · rw [hnil]
    exact List.not_mem_nil
  · rw [← hbefore, List.dropLast_append_of_ne_nil hnil, List.mem_append, not_or] at hline
    exact hline.2

/-- A line end at the end of a text counts for nothing. -/
theorem strip_filter {ts : List Token} (hkind : ∀ t ∈ ts.dropLast, t.kind ≠ .newline)
    (htext : ∀ t ∈ ts, t.kind = .newline → t.text = "\n") :
    Text.strip ((ts.filter fun t => t.kind ≠ .newline).map fun t => t.text.toList).flatten =
      Text.strip (ts.map fun t => t.text.toList).flatten := by
  rcases List.eq_nil_or_concat ts with rfl | ⟨init, last, rfl⟩
  · rfl
  rw [List.concat_eq_append, List.dropLast_concat] at hkind
  rw [List.concat_eq_append] at htext ⊢
  have hinit : init.filter (fun t => t.kind ≠ .newline) = init :=
    List.filter_eq_self.mpr fun t ht => decide_eq_true (hkind t ht)
  rw [List.filter_append, hinit, List.map_append, List.flatten_append, List.map_append,
    List.flatten_append]
  by_cases hnewline : last.kind = .newline
  · have hlast := htext last (List.mem_append_right _ List.mem_cons_self) hnewline
    rw [strip_append (v := ([last].map fun t => t.text.toList).flatten), List.filter_eq_nil_iff.mpr]
    · rw [List.map_nil, List.flatten_nil, List.append_nil]
    · exact List.forall_mem_singleton.mpr (by simp [hnewline])
    · rw [List.map_singleton, hlast]
      exact List.forall_mem_singleton.mpr (by decide)
  · have hlast : [last].filter (fun t => t.kind ≠ .newline) = [last] :=
      List.filter_eq_self.mpr (List.forall_mem_singleton.mpr (decide_eq_true hnewline))
    rw [hlast]

/-- The texts of the tokens after the name are what is written there, if there is no fault. -/
theorem strip_rest {rest : List Token} {mark name : Token} (hform : l.form = .directive mark name rest)
    (hnone : ∀ t ∈ l.tokens, t.fault = none) :
    Text.strip (rest.map fun t => t.text.toList).flatten = Text.strip l.afterName := by
  obtain ⟨lead, gap, after, hline, rfl⟩ := LineForm.of_eq_directive_iff.mp hform
  obtain ⟨lead', gap', after', hdirects, hafter⟩ := Source.Line.exists_lexeme_directs hline
  have hplain : ∀ x ∈ after', ∃ kind text, x = .token kind text := by
    intro x hx
    refine Source.Line.exists_token hnone x ?_
    rw [hdirects.lexemes]
    exact List.mem_append_right _
      (List.mem_cons_of_mem _ (List.mem_append_right _ (List.mem_cons_of_mem _ hx)))
  have hsplit : l.tokens.map Scanned.token = (lead ++ mark :: (gap ++ [name])) ++ after := by
    rw [hline.line]
    simp
  have hkind : ∀ t ∈ after.dropLast, t.kind ≠ .newline := by
    intro t ht
    have hne : after ≠ [] := by
      rintro rfl
      exact absurd ht List.not_mem_nil
    have hmem : t ∈ (l.tokens.map Scanned.token).dropLast := by
      rw [hsplit, List.dropLast_append_of_ne_nil hne]
      exact List.mem_append_right _ ht
    rw [← List.map_dropLast] at hmem
    obtain ⟨scanned, hscanned, rfl⟩ := List.mem_map.mp hmem
    exact Source.kind_of_mem_dropLast (s := l.source) l.single scanned hscanned
  have htext : ∀ t ∈ after, t.kind = .newline → t.text = "\n" := by
    intro t ht
    have hmem : t ∈ l.tokens.map Scanned.token := by
      rw [hsplit]
      exact List.mem_append_right _ ht
    obtain ⟨scanned, hscanned, rfl⟩ := List.mem_map.mp hmem
    exact Source.Line.text_of_newline hscanned
  rw [(Source.Line.beforeName_eq hdirects).2, strip_filter hkind htext,
    Source.Line.flatten_text_of_form hafter hplain]

/-- The message of a directive is what is written after its name, where it shows, or where there is no
fault. -/
theorem messageText_eq {rest : List Token} {mark name : Token} (hfirst : u.source.firstLine = 1)
    (hcounted : l.Counted) (hform : l.form = .directive mark name rest) (hask : l.form.IsMessage)
    (hline : '\n' ∉ l.chars.dropLast) (hlast : l.text.toList.getLast? ≠ some '\\')
    (h : l.Tidy ∨ ∀ t ∈ l.tokens, t.fault = none) :
    messageText u rest mark.location = String.ofList (Text.strip l.afterName) := by
  obtain ⟨lead, gap, after, hdirects, -⟩ := LineForm.of_eq_directive_iff.mp hform
  obtain ⟨front, more, htokens, hfront, hmore⟩ := List.map_eq_append_iff.mp hdirects.line
  obtain ⟨t, back, rfl, rfl, hback⟩ := List.map_eq_cons_iff.mp hmore
  have hmark : t.token.kind ≠ .newline := by
    rw [(Token.isPunctuator_iff.mp hdirects.mark).1]
    rintro ⟨⟩
  obtain ⟨d, hd, hlogical⟩ := message?_location hfirst hcounted htokens hmark
    (Source.Line.not_mem_newline_front htokens hmark hline)
  have hspace : ∀ c ∈ d, Text.isSpace c = true := by
    rcases hd with rfl | rfl | ⟨-, hbackslash⟩
    · exact List.forall_mem_nil _
    · exact List.forall_mem_singleton.mpr (by decide)
    · exact absurd hbackslash hlast
  rw [messageText]
  cases hmessage : message? (u.listing.logicalLine t.token.location.line) with
  | some message =>
    rw [hmessage, Option.map_some] at hlogical
    have htidy : l.Tidy :=
      (Source.Line.isSome_message?_iff_tidy hask).mp (by rw [hlogical, Option.isSome_some])
    have hsame : message ++ d = l.afterName.takeWhile (· ≠ '\n') :=
      Option.some.inj (hlogical.symm.trans (Source.Line.message?_of_tidy hask htidy))
    simp only
    rw [← strip_append hspace, hsame, strip_takeWhile (not_mem_newline_afterName hline)]
  | none =>
    rw [hmessage, Option.map_none] at hlogical
    have huntidy : ¬ l.Tidy := fun htidy => by
      have hsome := (Source.Line.isSome_message?_iff_tidy hask).mpr htidy
      rw [hlogical] at hsome
      cases hsome
    simp only
    rw [strip_rest hform (h.resolve_left huntidy)]

/-! ## The two ways to tell a message -/

theorem record_ne (r : Run) (report : Report) : r.record report ≠ r := by
  intro h
  have hentries : (r.record report).journal.entries = r.journal.entries :=
    congrArg (fun r => r.journal.entries) h
  exact absurd (congrArg List.length hentries) (by simp [record, Journal.error, Journal.add])

theorem noteFaults_eq (hlive : r.isLive = true) (hl : l.tokens = front ++ t :: back)
    (hfault : t.fault = some cause) :
    r.noteFaults u l.tokens =
      if inMessage u t.token.location then r
      else r.record (u.source.report t.token.location cause) := by
  have hnoted : r.noteFaults u l.tokens = (faultReports u l.tokens).foldl record r := by
    rw [noteFaults, if_pos hlive]
    rfl
  rw [hnoted, faultReports_eq hl hfault]
  split
  · rfl
  · rfl

/-- Reports the message of a directive, as an error that ends the run or as a warning. -/
def announce (r : Run) (u : SourceUnit) (mark name : Token) (message : String) : Run :=
  if name.text = "error" then
    r.abort (DirectiveFault.report ⟨.user message, mark.location⟩ (u.quote? mark.location))
  else r.warn (DirectiveFault.withMessage "warning" message) mark.location

theorem takeLine_message {line : List Token} {rest : List Token} {mark name : Token}
    (hform : LineForm.of line = .directive mark name rest) (hask : (LineForm.of line).IsMessage)
    (hlive : r.isLive = true) :
    r.takeLine u line = (r.flush u).announce u mark name (messageText u rest mark.location) := by
  obtain ⟨-, hframes, -⟩ := flush_spec u r
  have hflush : (r.flush u).isLive = true := (isLive_of_frames hframes).trans hlive
  rw [hform, LineForm.IsMessage] at hask
  rw [takeLine, hform]
  simp only
  rw [directive]
  rcases hask with hkeyword | hkeyword
  · simp only [hkeyword, hflush, if_true]
    rw [announce, if_pos (Keyword.ofText?_error_iff.mp hkeyword)]
  · simp only [hkeyword, hflush, if_true]
    rw [announce, if_neg]
    rw [Keyword.ofText?_warning_iff.mp hkeyword]
    decide

/-- The text test and the token test for a message agree on the plain lines. If the lines of a source
are counted alike, a fault on a logical line in live text is left unrecorded where its tokens make it an
`#error` or `#warning`, and else is recorded, exactly if the line is plain; only a comment with a newline
may not stand before the fault. The message is what is written after the name, up to the end of the
line and without splices, if the line is plain or has no fault, no comment in it holds a newline, and
the source does not end there in a backslash. -/
theorem messageLine_agrees (u : SourceUnit) (hfirst : u.source.firstLine = 1) :
    (∀ line, line ∈ u.source.logicalLines ↔ ∃ l : u.source.Line, l.tokens = line) ∧
      ∀ l : u.source.Line, l.Counted → ∀ r : Run, r.isLive = true →
        (∀ (front back : List Scanned) (t : Scanned) (cause : LexFault),
          l.tokens = front ++ t :: back → t.fault = some cause →
          (∀ f ∈ front, '\n' ∉ f.token.text.toList) →
            (r.noteFaults u l.tokens = r ∨
              r.noteFaults u l.tokens = r.record (u.source.report t.token.location cause)) ∧
            ((r.noteFaults u l.tokens = r ↔ l.form.IsMessage) ↔ l.Plain)) ∧
        ∀ (mark name : Token) (rest : List Token), l.form = .directive mark name rest →
          l.form.IsMessage → '\n' ∉ l.chars.dropLast → l.text.toList.getLast? ≠ some '\\' →
          (l.Plain ∨ ∀ t ∈ l.tokens, t.fault = none) →
            r.takeLine u (l.tokens.map Scanned.token) =
              (r.flush u).announce u mark name (String.ofList (Text.strip l.afterName)) := by
  refine ⟨fun line => Source.mem_logicalLines_iff, fun l hcounted r hlive => ⟨?_, ?_⟩⟩
  · intro front back t cause hl hfault hfront
    have ht := Source.Line.kind_ne_of_fault hl hfault
    have hnoted := noteFaults_eq (u := u) hlive hl hfault
    have hmessage := inMessage_eq hfirst hcounted hl ht hfront
    have hunrecorded : r.noteFaults u l.tokens = r ↔
        (message? (beforeNewline l.text.toList)).isSome = true := by
      rw [hnoted, ← hmessage]
      split
      · rename_i hin
        exact iff_of_true rfl hin
      · rename_i hin
        exact iff_of_false (record_ne r _) hin
    refine ⟨?_, by rw [hunrecorded, Source.Line.isSome_message?_iff_plain]⟩
    rw [hnoted]
    split
    · exact .inl rfl
    · exact .inr rfl
  · intro mark name rest hform hask hline hlast h
    have htext := messageText_eq hfirst hcounted hform hask hline hlast
      (h.imp_left fun hplain => hplain.tidy hask)
    rw [← htext]
    exact takeLine_message hform hask hlive

/-- A source with a quote in the message of its second line. -/
def quoted : SourceUnit := { source := { text := "int a;\n#warning don't\n" } }

/-- The line of the message. -/
def quotedLine : quoted.source.Line where
  above := "int a;\n"
  text := "#warning don't\n"
  below := ""
  text_eq := rfl
  endsLine := Source.endsLine_of_lexemes (by
    rw [show lexemes _ = _ by cbv]
    rintro l ⟨⟩
    exact ⟨_, rfl⟩)
  last := .inr rfl
  nonempty := by
    cbv
    decide
  single := by
    rw [show lexemes _ = _ by cbv]
    decide

theorem messageLine_agrees_quoted :
    let r : Run := { table := ∅, journal := {} }
    let mark : Token := { kind := .punctuator, text := "#", location := ⟨"<input>", 2, 1⟩ }
    let name : Token := { kind := .identifier, text := "warning", location := ⟨"<input>", 2, 2⟩ }
    quotedLine.Counted ∧ quotedLine.form.IsMessage ∧ quotedLine.Plain ∧
      r.noteFaults quoted quotedLine.tokens = r ∧
      r.takeLine quoted (quotedLine.tokens.map Scanned.token) =
        (r.flush quoted).announce quoted mark name "don't" := by
  intro r mark name
  have hlexemes : quotedLine.lexemes = [.token .punctuator ['#'], .token .identifier "warning".toList,
      .token .whitespace [' '], .token .identifier ['d', 'o', 'n'],
      .fault .unterminatedCharacter ['\'', 't'], .token .newline ['\n']] := by cbv
  have hcounted : quotedLine.Counted := ⟨by decide, by decide⟩
  have hline : '\n' ∉ quotedLine.chars.dropLast := by decide
  obtain ⟨rest, hform⟩ : ∃ rest, quotedLine.form = .directive mark name rest := ⟨_, by cbv⟩
  have hask : quotedLine.form.IsMessage := by
    rw [hform]
    exact .inr (by decide)
  have hplain : quotedLine.Plain := by
    refine ⟨fun _ => ⟨?_, ?_⟩, fun _ => hask⟩
    · rw [Source.Line.beforeName, hlexemes]
      decide
    · rw [Source.Line.afterName, hlexemes]
      rintro c ⟨⟩
      decide
  obtain ⟨front, t, back, hl, hfault⟩ : ∃ front t back, quotedLine.tokens = front ++ t :: back ∧
      t.fault = some .unterminatedCharacter := ⟨quotedLine.tokens.take 4, _, [_], by cbv, by cbv⟩
  have hfront := Source.Line.not_mem_newline_front hl (Source.Line.kind_ne_of_fault hl hfault) hline
  obtain ⟨hnoted, hmessage⟩ := (messageLine_agrees quoted rfl).2 quotedLine hcounted r rfl
  refine ⟨hcounted, hask, hplain, ?_, ?_⟩
  · exact ((hnoted front back t _ hl hfault hfront).2.mpr hplain).mpr hask
  · rw [hmessage mark name rest hform hask hline (by decide) (.inl hplain), Source.Line.afterName,
      hlexemes]
    rfl

/-- A source with a comment before the `#`. -/
def commented : SourceUnit := { source := { text := "/**/#warning don't\n" } }

/-- With a comment before the `#` the quote is recorded, and the message breaks off at it. -/
theorem messageLine_disagrees_commented :
    ∃ l : commented.source.Line, commented.source.logicalLines = [l.tokens] ∧ l.form.IsMessage ∧
      String.ofList (Text.strip l.afterName) = "don't" ∧
        (start commented ∅).journal.entries.map Diagnostic.message =
          ["unterminated character constant", "#warning don"] := by
  have hlexemes : lexemes (despliced commented.source.text.toList) = [.token .comment "/**/".toList,
      .token .punctuator ['#'], .token .identifier "warning".toList, .token .whitespace [' '],
      .token .identifier ['d', 'o', 'n'], .fault .unterminatedCharacter ['\'', 't'],
      .token .newline ['\n']] := by cbv
  have hne : lexemes (despliced commented.source.text.toList) ≠ [] := by
    rw [hlexemes]
    exact List.cons_ne_nil _ _
  have hsingle : ∀ l ∈ (lexemes (despliced commented.source.text.toList)).dropLast, l.kind ≠ .newline := by
    rw [hlexemes]
    decide
  refine ⟨.first (String.append_empty).symm (.inr rfl) hne hsingle, ?_, ?_, ?_,
    by decide +kernel⟩
  · rw [Source.Line.tokens_first]
    exact Source.logicalLines_of_dropLast hne hsingle
  · obtain ⟨mark, name, rest, hform, hname⟩ : ∃ mark name rest,
        LineForm.of (commented.source.scan.map Scanned.token) = .directive mark name rest ∧
          name.text = "warning" := ⟨_, _, _, by cbv, by cbv⟩
    rw [Source.Line.form, Source.Line.tokens_first, hform]
    exact .inr (Keyword.ofText?_warning_iff.mpr hname)
  · rw [Source.Line.afterName]
    cbv

end Run

end CPreprocessor
